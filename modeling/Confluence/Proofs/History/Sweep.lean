import Confluence.Proofs.History.Frontier

/-!
# Sweeps

All walks through a history go the same way: they keep a frontier of commits that have been met,
visit the one with the highest level and of those the one with the greatest id, and meet its
parents. `Sweep` is what holds of such a walk at every visit, with a floor below which parents are
passed by. A visit keeps it (`Sweep.visit`). From it follows that the visited commits descend
strictly, that an ancestor of the heads has been visited unless it lies below the frontier or the
floor, and that the stored commits bound the number of visits.
-/

namespace Confluence

variable {κ : Type} [CommitId κ] {β : Type}

/-! ## The invariant of walks -/

/-- Where a walk from some heads stands that passes by what lies below a floor: the visited commits,
the last one first, and the frontier. -/
structure Sweep (h : History κ) (floor : Nat) (heads : OrdSet κ) (visited : List κ)
    (f : Frontier κ β) : Prop where
  entry : ∀ {id e}, f.get? id = some e → h.get? id = some e.1
  unvisited : ∀ {id e}, f.get? id = some e → id ∉ visited
  floor_le : ∀ {id e}, f.get? id = some e → floor ≤ e.1.level
  reached : ∀ {id}, (id ∈ visited ∨ ∃ e, f.get? id = some e) → ∃ x ∈ heads, h.Ancestor id x
  head_met : ∀ {x}, x ∈ heads → x ∈ visited ∨ ∃ e, f.get? x = some e
  parent_met : ∀ {v p c}, v ∈ visited → h.IsParent p v → h.get? p = some c → floor ≤ c.level →
    p ∈ visited ∨ ∃ e, f.get? p = some e
  stored : ∀ {v}, v ∈ visited → ∃ c, h.get? v = some c
  lower : ∀ {v c id e}, v ∈ visited → h.get? v = some c → f.get? id = some e → e.1.Lower c
  descending : visited.Pairwise fun v w =>
    ∃ c d, h.get? v = some c ∧ h.get? w = some d ∧ c.Lower d

namespace Sweep

variable {h : History κ} {floor : Nat} {heads : OrdSet κ} {visited : List κ} {f : Frontier κ β}

theorem start (hg : h.Graded) {cs : List (Commit κ)}
    (hcs : heads.toList.map h.get? = cs.map some)
    (hheads : ∀ x ∈ heads, ∃ c, h.get? x = some c ∧ floor ≤ c.level) (b : Commit κ → β) :
    Sweep h floor heads [] (Frontier.add ∅ (cs.map fun c => (c, b c))) := by
  have hget := Frontier.get?_add_loaded (fun _ _ => hg.filed) hcs b
  constructor
  · intro id e he
    obtain ⟨-, c, hc, rfl⟩ := (hget id e).1 he
    exact hc
  · simp
  · intro id e he
    obtain ⟨hid, c, hc, rfl⟩ := (hget id e).1 he
    obtain ⟨d, hd, hle⟩ := hheads id hid
    rw [hc] at hd
    cases hd
    exact hle
  · rintro id (hid | ⟨e, he⟩)
    · cases hid
    · exact ⟨id, ((hget id e).1 he).1, .refl id⟩
  · intro x hx
    obtain ⟨c, hc, -⟩ := hheads x hx
    exact .inr ⟨(c, b c), (hget x _).2 ⟨hx, c, hc, rfl⟩⟩
  · simp
  · simp
  · simp
  · exact .nil

theorem filed (hs : Sweep h floor heads visited f) (hg : h.Graded) : f.Filed :=
  fun _ _ he => hg.filed (hs.entry he)

theorem nodup (hs : Sweep h floor heads visited f) : visited.Nodup := by
  refine hs.descending.imp fun {v w} hvw hne => ?_
  obtain ⟨c, d, hc, hd, hlt⟩ := hvw
  rw [hne, hd] at hc
  cases hc
  exact hlt.irrefl

theorem course (hs : Sweep h floor heads visited f) : Course h visited f :=
  ⟨hs.entry, hs.unvisited, hs.nodup, hs.stored⟩

/-- An ancestor of a head has been visited unless it lies below the floor or below a commit on the
frontier. -/
theorem visited_or_below (hs : Sweep h floor heads visited f) (hg : h.Graded) {a x : κ}
    {c : Commit κ} (hx : x ∈ heads) (ha : h.Ancestor a x) (hc : h.get? a = some c)
    (hle : floor ≤ c.level) :
    a ∈ visited ∨ ∃ b e, f.get? b = some e ∧ h.Ancestor a b ∧ h.Ancestor b x := by
  induction ha using Relation.ReflTransGen.head_induction_on generalizing c with
  | refl =>
      rcases hs.head_met hx with hv | ⟨e, he⟩
      · exact .inl hv
      · exact .inr ⟨x, e, he, .refl x, .refl x⟩
  | head hp hbx ih =>
      rename_i a b
      obtain ⟨commit, edge, hb, hedge⟩ := hp
      have hlt : c.level < commit.level := hg.parent_level ⟨commit, edge, hb, hedge⟩ hc hb
      have hpar : h.IsParent a b := ⟨commit, edge, hb, hedge⟩
      rcases ih hb (Nat.le_of_lt (Nat.lt_of_le_of_lt hle hlt)) with hv | ⟨d, e, he, hbd, hdx⟩
      · rcases hs.parent_met hv hpar hc hle with hv | ⟨e, he⟩
        · exact .inl hv
        · exact .inr ⟨a, e, he, .refl a, .head hpar hbx⟩
      · exact .inr ⟨d, e, he, .head hpar hbd, hdx⟩

variable {e : Commit κ × β} {rest : Frontier κ β}

/-- The entry that is visited next has the id of a stored commit that is above all others on the
frontier. -/
theorem pop (hs : Sweep h floor heads visited f) (hg : h.Graded)
    (hpop : f.pop? = some (e, rest)) :
    f.get? e.1.id = some e ∧ h.get? e.1.id = some e.1 ∧
      (∀ id, rest.get? id = if id = e.1.id then none else f.get? id) ∧
      ∀ id x, f.get? id = some x → id = e.1.id ∨ x.1.Lower e.1 := by
  obtain ⟨he, rfl, hall⟩ := Frontier.pop?_eq_some (hs.filed hg) hpop
  refine ⟨he, hs.entry he, fun id => OrdMap.get?_erase .., fun id x hx => ?_⟩
  rcases hall id x hx with rfl | hlt
  · exact .inl (hs.filed hg id x hx).symm
  · exact .inr hlt

theorem get?_of_rest (hs : Sweep h floor heads visited f) (hg : h.Graded)
    (hpop : f.pop? = some (e, rest)) {id : κ} {y : Commit κ × β} (hy : rest.get? id = some y) :
    f.get? id = some y ∧ id ≠ e.1.id := by
  obtain ⟨-, -, hget, -⟩ := hs.pop hg hpop
  rw [hget] at hy
  split at hy
  next => cases hy
  next hne => exact ⟨hy, hne⟩

theorem parent_unvisited (hs : Sweep h floor heads visited f) (hg : h.Graded)
    (hpop : f.pop? = some (e, rest)) {p : κ} (hp : h.IsParent p e.1.id) : p ∉ visited := by
  intro hv
  obtain ⟨he, hc, -, -⟩ := hs.pop hg hpop
  obtain ⟨d, hd⟩ := hs.stored hv
  exact absurd (hg.parent_level hp hd hc) (Nat.not_lt.2 (hs.lower hv hd he).level_le)

/-- What has been met is still on the frontier after a visit if it was not visited. -/
theorem met (hs : Sweep h floor heads visited f) (hg : h.Graded) (hpop : f.pop? = some (e, rest))
    {id : κ} (hid : id ∈ visited ∨ ∃ y, f.get? id = some y) :
    id ∈ e.1.id :: visited ∨ ∃ y, rest.get? id = some y := by
  obtain ⟨-, -, hget, -⟩ := hs.pop hg hpop
  rcases hid with hid | ⟨y, hy⟩
  · exact .inl (List.mem_cons_of_mem _ hid)
  · by_cases heq : id = e.1.id
    · exact .inl (heq ▸ List.mem_cons_self)
    · exact .inr ⟨y, by rw [hget, if_neg heq, hy]⟩

theorem exists_rest_of_parent (hs : Sweep h floor heads visited f) (hg : h.Graded)
    (hpop : f.pop? = some (e, rest)) {p : κ} (hp : h.IsParent p e.1.id)
    (hmet : p ∈ visited ∨ ∃ y, f.get? p = some y) : ∃ y, rest.get? p = some y := by
  refine (hs.met hg hpop hmet).resolve_left fun hv => ?_
  rcases List.mem_cons.1 hv with rfl | hv
  · obtain ⟨-, hc, -, -⟩ := hs.pop hg hpop
    exact Nat.lt_irrefl _ (hg.parent_level hp hc hc)
  · exact hs.parent_unvisited hg hpop hp hv

/-- What is below the frontier comes after the commit that is visited next. -/
theorem eq_or_lower (hs : Sweep h floor heads visited f) (hg : h.Graded)
    (hpop : f.pop? = some (e, rest)) {b d : κ} {c : Commit κ} {x : Commit κ × β}
    (hd : f.get? d = some x) (hbd : h.Ancestor b d) (hc : h.get? b = some c) :
    b = e.1.id ∨ c.Lower e.1 := by
  obtain ⟨-, -, -, hall⟩ := hs.pop hg hpop
  rcases hg.eq_or_lower hbd hc (hs.entry hd) with rfl | hlow
  · rw [Option.some.inj (hc.symm.trans (hs.entry hd))]
    exact hall b x hd
  · rcases hall d x hd with rfl | hlow'
    · rw [← Option.some.inj ((hs.entry hd).symm.trans (hs.pop hg hpop).2.1)]
      exact .inr hlow
    · exact .inr (hlow.trans hlow')

structure Renewed (h : History κ) (floor : Nat) (c : κ) (rest g : Frontier κ β) : Prop where
  entry : ∀ {id x}, g.get? id = some x → h.get? id = some x.1 ∧
    ((∃ y, rest.get? id = some y) ∨ h.IsParent id c ∧ floor ≤ x.1.level)
  kept : ∀ {id y}, rest.get? id = some y → ∃ x, g.get? id = some x
  parent : ∀ {p d}, h.IsParent p c → h.get? p = some d → floor ≤ d.level → ∃ x, g.get? p = some x

variable {g : Frontier κ β}

theorem Renewed.lower (hr : Renewed h floor e.1.id rest g)
    (hs : Sweep h floor heads visited f) (hg : h.Graded) (hpop : f.pop? = some (e, rest)) {id : κ}
    {x : Commit κ × β} (hx : g.get? id = some x) : x.1.Lower e.1 := by
  obtain ⟨-, hc, -, hall⟩ := hs.pop hg hpop
  obtain ⟨hid, ⟨y, hy⟩ | ⟨hp, -⟩⟩ := hr.entry hx
  · obtain ⟨hy, hne⟩ := hs.get?_of_rest hg hpop hy
    have hyx : y.1 = x.1 := Option.some.inj ((hs.entry hy).symm.trans hid)
    rw [← hyx]
    exact (hall id y hy).resolve_left hne
  · exact .inl (hg.parent_level hp hid hc)

theorem Renewed.reached (hr : Renewed h floor e.1.id rest g)
    (hs : Sweep h floor heads visited f) (hg : h.Graded) (hpop : f.pop? = some (e, rest)) {id : κ}
    (hid : id ∈ e.1.id :: visited ∨ ∃ x, g.get? id = some x) :
    ∃ x ∈ heads, h.Ancestor id x := by
  obtain ⟨he, -, -, -⟩ := hs.pop hg hpop
  have hstart : ∃ x ∈ heads, h.Ancestor e.1.id x := hs.reached (.inr ⟨e, he⟩)
  rcases hid with hid | ⟨x, hx⟩
  · rcases List.mem_cons.1 hid with rfl | hid
    · exact hstart
    · exact hs.reached (.inl hid)
  · obtain ⟨-, ⟨y, hy⟩ | ⟨hp, -⟩⟩ := hr.entry hx
    · exact hs.reached (.inr ⟨y, (hs.get?_of_rest hg hpop hy).1⟩)
    · obtain ⟨z, hz, hez⟩ := hstart
      exact ⟨z, hz, .trans hp.ancestor hez⟩

theorem Renewed.met (hr : Renewed h floor e.1.id rest g)
    (hs : Sweep h floor heads visited f) (hg : h.Graded) (hpop : f.pop? = some (e, rest)) {id : κ}
    (hid : id ∈ visited ∨ ∃ y, f.get? id = some y) :
    id ∈ e.1.id :: visited ∨ ∃ x, g.get? id = some x :=
  (hs.met hg hpop hid).imp_right fun ⟨_, hy⟩ => hr.kept hy

theorem visit (hs : Sweep h floor heads visited f) (hg : h.Graded)
    (hpop : f.pop? = some (e, rest)) (hr : Renewed h floor e.1.id rest g) :
    Sweep h floor heads (e.1.id :: visited) g := by
  obtain ⟨he, hc, -, -⟩ := hs.pop hg hpop
  constructor
  · intro id x hx
    exact (hr.entry hx).1
  · intro id x hx hid
    have hlt : x.1.Lower x.1 := by
      rcases List.mem_cons.1 hid with rfl | hid
      · have hlt := hr.lower hs hg hpop hx
        rwa [← Option.some.inj ((hr.entry hx).1.symm.trans hc)] at hlt
      · exact (hr.lower hs hg hpop hx).trans (hs.lower hid (hr.entry hx).1 he)
    exact hlt.irrefl
  · intro id x hx
    obtain ⟨hid, ⟨y, hy⟩ | ⟨-, hle⟩⟩ := hr.entry hx
    · obtain ⟨hy, -⟩ := hs.get?_of_rest hg hpop hy
      rw [← Option.some.inj ((hs.entry hy).symm.trans hid)]
      exact hs.floor_le hy
    · exact hle
  · intro id hid
    exact hr.reached hs hg hpop hid
  · intro x hx
    exact hr.met hs hg hpop (hs.head_met hx)
  · intro v p d hv hp hd hle
    rcases List.mem_cons.1 hv with rfl | hv
    · exact .inr (hr.parent hp hd hle)
    · exact hr.met hs hg hpop (hs.parent_met hv hp hd hle)
  · intro v hv
    rcases List.mem_cons.1 hv with rfl | hv
    · exact ⟨e.1, hc⟩
    · exact hs.stored hv
  · intro v d id x hv hd hx
    rcases List.mem_cons.1 hv with rfl | hv
    · rw [hc] at hd
      cases hd
      exact hr.lower hs hg hpop hx
    · exact (hr.lower hs hg hpop hx).trans (hs.lower hv hd he)
  · refine List.pairwise_cons.2 ⟨fun w hw => ?_, hs.descending⟩
    obtain ⟨d, hd⟩ := hs.stored hw
    exact ⟨e.1, d, hc, hd, hs.lower hw hd he⟩

end Sweep

/-! ## The order of visits -/

/-- Visits in their order: each comes strictly after the one before and is below a head, and what is
below a head and not visited comes after all of them. -/
structure Descent (h : History κ) (heads : OrdSet κ) (visits : List κ) : Prop where
  descending : visits.Pairwise fun v w =>
    ∃ c d, h.get? v = some c ∧ h.get? w = some d ∧ d.Lower c
  below : ∀ {v}, v ∈ visits → ∃ x ∈ heads, h.Ancestor v x
  lower : ∀ {b v x c d}, x ∈ heads → h.Ancestor b x → b ∉ visits → v ∈ visits →
    h.get? b = some c → h.get? v = some d → c.Lower d

theorem Descent.nodup {h : History κ} {heads : OrdSet κ} {visits : List κ}
    (hd : Descent h heads visits) : visits.Nodup := by
  refine hd.descending.imp fun {v w} hvw hne => ?_
  obtain ⟨c, d, hc, hd, hlt⟩ := hvw
  rw [hne, hd] at hc
  cases hc
  exact hlt.irrefl

namespace Sweep

variable {h : History κ} {heads : OrdSet κ} {visited : List κ} {f rest : Frontier κ β}
  {e : Commit κ × β}

theorem descent (hs : Sweep h 0 heads visited f) (hg : h.Graded) :
    Descent h heads visited.reverse := by
  constructor
  · rw [List.pairwise_reverse]
    exact hs.descending.imp fun ⟨c, d, hc, hd, hlt⟩ => ⟨d, c, hd, hc, hlt⟩
  · exact fun hv => hs.reached (.inl (List.mem_reverse.1 hv))
  · intro b v x c d hx hb hnew hv hc hd
    rw [List.mem_reverse] at hnew hv
    obtain ⟨i, e, he, hbi, -⟩ :=
      (hs.visited_or_below hg hx hb hc (Nat.zero_le _)).resolve_left hnew
    have hlow : e.1.Lower d := hs.lower hv hd he
    rcases hg.eq_or_lower hbi hc (hs.entry he) with rfl | hlt
    · rwa [Option.some.inj (hc.symm.trans (hs.entry he))]
    · exact hlt.trans hlow

theorem descent_pop (hs : Sweep h 0 heads visited f) (hg : h.Graded)
    (hpop : f.pop? = some (e, rest)) : Descent h heads (visited.reverse ++ [e.1.id]) := by
  obtain ⟨he, hc, -, -⟩ := hs.pop hg hpop
  have hvisited := hs.descent hg
  constructor
  · refine List.pairwise_append.2
      ⟨hvisited.descending, List.pairwise_singleton .., fun v hv w hw => ?_⟩
    rw [List.mem_reverse] at hv
    obtain ⟨d, hd⟩ := hs.stored hv
    rw [List.mem_singleton.1 hw]
    exact ⟨d, e.1, hd, hc, hs.lower hv hd he⟩
  · intro v hv
    rcases List.mem_append.1 hv with hv | hv
    · exact hvisited.below hv
    · rw [List.mem_singleton.1 hv]
      exact hs.reached (.inr ⟨e, he⟩)
  · intro b v x c d hx hb hnew hv hbc hd
    rw [List.mem_append, not_or, List.mem_singleton] at hnew
    rcases List.mem_append.1 hv with hv | hv
    · exact hvisited.lower hx hb hnew.1 hv hbc hd
    · rw [List.mem_singleton.1 hv, hc] at hd
      cases hd
      obtain ⟨i, y, hi, hbi, -⟩ := (hs.visited_or_below hg hx hb hbc (Nat.zero_le _)).resolve_left
        fun hin => hnew.1 (List.mem_reverse.2 hin)
      exact (hs.eq_or_lower hg hpop hi hbi hbc).resolve_left hnew.2

end Sweep

end Confluence
