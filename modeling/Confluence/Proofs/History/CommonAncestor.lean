import Confluence.History.CommonAncestor
import Confluence.Proofs.History.Sweep
import Confluence.Proofs.Repository.Ensures

/-!
# Finding the nearest common ancestor

The walk is a sweep without a floor. What it knows about a commit on the frontier are heads with
routes up to them, and for every head above a commit that has not been visited some commit on the
frontier between the two knows the head. A commit that is visited therefore knows exactly the heads
above it. So the walk ends at the common ancestor that is greatest in the order of visits, and fails
only where there is no common ancestor.
-/

namespace Confluence

variable {κ : Type} [CommitId κ]

namespace History

/-- Every head descends from the commit, and it is visited before all other commits of which this
holds. -/
structure IsNearest (h : History κ) (heads : OrdSet κ) (a : κ) : Prop where
  common : ∀ x ∈ heads, h.Ancestor a x
  greatest : ∀ {b ca cb}, (∀ x ∈ heads, h.Ancestor b x) → h.get? a = some ca →
    h.get? b = some cb → b = a ∨ cb.Lower ca

def PathsFrom (h : History κ) (heads : OrdSet κ) (a : κ) (paths : Reach κ) : Prop :=
  (∀ x ∈ heads, ∃ l, paths.get? x = some l) ∧
    ∀ x l, paths.get? x = some l →
      x ∈ heads ∧ ∃ edges, h.Route a x edges ∧ l = Accumulator.squashed.fold edges

theorem PathsFrom.exists_iff {h : History κ} {heads : OrdSet κ} {a x : κ} {paths : Reach κ}
    (hp : h.PathsFrom heads a paths) : (∃ l, paths.get? x = some l) ↔ x ∈ heads := by
  refine ⟨?_, hp.1 x⟩
  rintro ⟨l, hl⟩
  exact (hp.2 x l hl).1

end History

namespace CommonAncestor

open History Program

variable {heads : OrdSet κ}

theorem get?_foldl_insertIfNew {α β : Type} {l : List (κ × α)}
    (hl : l.Pairwise fun a b => compare a.1 b.1 = .lt) (g : α → β) (m : OrdMap κ β) (x : κ) :
    (l.foldl (fun m e => m.insertIfNew e.1 (g e.2)) m).get? x =
      (m.get? x).or ((OrdMap.lookup x l).map g) := by
  induction l generalizing m with
  | nil => simp [OrdMap.lookup]
  | cons e l ih =>
      rw [List.pairwise_cons] at hl
      rw [List.foldl_cons, ih hl.2, OrdMap.get?_insertIfNew]
      by_cases hx : x = e.1
      · subst hx
        have hn : OrdMap.lookup e.1 l = none := OrdMap.lookup_eq_none_of_lt hl.1
        simp [OrdMap.lookup, hn, Std.ReflCmp.compare_self]
      · have hne : compare x e.1 ≠ .eq := fun he => hx (Std.LawfulEqCmp.eq_of_compare he)
        rw [if_neg hx, Option.or_none]
        cases hc : compare x e.1 with
        | lt =>
            have hn : OrdMap.lookup x l = none :=
              OrdMap.lookup_eq_none_of_lt fun a ha => Std.TransCmp.lt_trans hc (hl.1 a ha)
            simp [OrdMap.lookup, hc, hn]
        | eq => exact absurd hc hne
        | gt => simp [OrdMap.lookup, hc]

theorem get?_spread (edge : List Operation) (reached known : Reach κ) (x : κ) :
    (spread edge reached known).get? x =
      (known.get? x).or ((reached.get? x).map (Accumulator.squashed.extend · edge)) :=
  get?_foldl_insertIfNew reached.ascending (Accumulator.squashed.extend · edge) known x

def knownAt (f : Frontier κ (Reach κ)) (id : κ) : Reach κ := ((f.get? id).map Prod.snd).getD ∅

/-- The frontier after some parents have learned what a child knows. -/
def Spread (h : History κ) (reached : Reach κ) (edges : List (κ × List Operation))
    (f g : Frontier κ (Reach κ)) : Prop :=
  (∀ id, id ∉ edges.map Prod.fst → g.get? id = f.get? id) ∧
    ∀ id edge, (id, edge) ∈ edges →
      ∃ c, h.get? id = some c ∧ g.get? id = some (c, spread edge reached (knownAt f id))

namespace Spread

variable {h : History κ} {reached : Reach κ} {edges : List (κ × List Operation)}
  {f g : Frontier κ (Reach κ)}

/-- What has been known stays known. -/
theorem kept (hs : Spread h reached edges f g) {id : κ} {y : Commit κ × Reach κ}
    (hy : f.get? id = some y) :
    ∃ x, g.get? id = some x ∧ ∀ z l, y.2.get? z = some l → x.2.get? z = some l := by
  by_cases hid : id ∈ edges.map Prod.fst
  · obtain ⟨e, hmem, rfl⟩ := List.mem_map.1 hid
    obtain ⟨d, -, hd⟩ := hs.2 e.1 e.2 hmem
    refine ⟨_, hd, fun z l hl => ?_⟩
    rw [get?_spread, knownAt, hy, Option.map_some, Option.getD_some, hl, Option.some_or]
  · exact ⟨y, by rw [hs.1 id hid, hy], fun _ _ hl => hl⟩

theorem handed (hs : Spread h reached edges f g) {p : κ} {edge : List Operation}
    (hmem : (p, edge) ∈ edges) {x : κ} {l : List Operation} (hl : reached.get? x = some l) :
    ∃ y l', g.get? p = some y ∧ y.2.get? x = some l' := by
  obtain ⟨d, -, hd⟩ := hs.2 p edge hmem
  have hx := get?_spread edge reached (knownAt f p) x
  rw [hl, Option.map_some] at hx
  cases hk : (knownAt f p).get? x with
  | none =>
      rw [hk, Option.none_or] at hx
      exact ⟨_, _, hd, hx⟩
  | some l' =>
      rw [hk, Option.some_or] at hx
      exact ⟨_, _, hd, hx⟩

/-- What is known has been known before or has come along an edge. -/
theorem origin (hs : Spread h reached edges f g) {id : κ} {x : Commit κ × Reach κ}
    (hx : g.get? id = some x) {z : κ} {l : List Operation} (hl : x.2.get? z = some l) :
    (∃ y, f.get? id = some y ∧ y.2.get? z = some l) ∨
      ∃ edge k, (id, edge) ∈ edges ∧ reached.get? z = some k ∧
        Accumulator.squashed.extend k edge = l := by
  by_cases hid : id ∈ edges.map Prod.fst
  · obtain ⟨e, hmem, rfl⟩ := List.mem_map.1 hid
    obtain ⟨d, -, hx'⟩ := hs.2 e.1 e.2 hmem
    cases hx.symm.trans hx'
    rw [get?_spread] at hl
    cases hk : (knownAt f e.1).get? z with
    | none =>
        rw [hk, Option.none_or] at hl
        obtain ⟨k, hk, hkl⟩ := Option.map_eq_some_iff.1 hl
        exact .inr ⟨e.2, k, hmem, hk, hkl⟩
    | some k =>
        rw [hk, Option.some_or] at hl
        cases hl
        cases hy : f.get? e.1 with
        | none => simp [knownAt, hy] at hk
        | some y =>
            rw [knownAt, hy, Option.map_some, Option.getD_some] at hk
            exact .inl ⟨y, rfl, hk⟩
  · rw [hs.1 id hid] at hx
    exact .inl ⟨x, hx, hl⟩

end Spread

theorem reads_spreadAll {v : View κ} {P : Frontier κ (Reach κ) → Prop} {E : Fault → Prop}
    {visited : OrdSet κ} {reached : Reach κ} {edges : List (κ × List Operation)}
    {f : Frontier κ (Reach κ)} (hkeys : (edges.map Prod.fst).Nodup)
    (hparents : ∀ e ∈ edges, e.1 ∉ visited ∧ ∃ c, v.commits.get? e.1 = some c)
    (hf : ∀ id e, f.get? id = some e → v.commits.get? id = some e.1)
    (hP : ∀ g, Spread v.commits reached edges f g → P g) (hE : ∀ e, v.fails e → E e) :
    (spreadAll visited reached edges f).Reads v P E := by
  induction edges generalizing f with
  | nil => exact reads_pure (hP f ⟨fun _ _ => rfl, fun _ _ h => by cases h⟩)
  | cons e edges ih =>
      obtain ⟨p, edge⟩ := e
      rw [List.map_cons, List.nodup_cons] at hkeys
      obtain ⟨hnew, c, hc⟩ := hparents (p, edge) List.mem_cons_self
      -- either way the parent is found with its commit and what it has learned
      have hstep : (spreadAll visited reached edges
          (f.insert p (c, spread edge reached (knownAt f p)))).Reads v P E := by
        apply ih hkeys.2 (fun e he => hparents e (List.mem_cons_of_mem _ he))
        · intro id e he
          rw [OrdMap.get?_insert] at he
          split at he
          next hid =>
            cases he
            exact hid ▸ hc
          next => exact hf id e he
        · intro g hg
          refine hP g ⟨fun id hid => ?_, fun id edge' hmem => ?_⟩
          · rw [List.map_cons, List.mem_cons, not_or] at hid
            rw [hg.1 id hid.2, OrdMap.get?_insert, if_neg hid.1]
          · rcases List.mem_cons.1 hmem with he | hin
            · cases he
              exact ⟨c, hc, by rw [hg.1 p hkeys.1, OrdMap.get?_insert, if_pos rfl]⟩
            · obtain ⟨d, hd, hget⟩ := hg.2 id edge' hin
              have hne : id ≠ p := by
                rintro rfl
                exact hkeys.1 (List.mem_map.2 ⟨(id, edge'), hin, rfl⟩)
              refine ⟨d, hd, ?_⟩
              rw [hget, knownAt, OrdMap.get?_insert, if_neg hne]
              rfl
      have hcontains : visited.contains p = false := by
        rw [← Bool.not_eq_true, OrdSet.contains_iff_mem]
        exact hnew
      unfold spreadAll
      rw [hcontains, if_neg Bool.false_ne_true]
      cases hget : f.get? p with
      | none =>
          have hknown : knownAt f p = ∅ := by simp [knownAt, hget]
          rw [hknown] at hstep
          apply Reads.bind
          exact reads_loadCommit hc hstep hE
      | some x =>
          obtain ⟨d, known⟩ := x
          have hd : d = c := Option.some.inj ((hf p _ hget).symm.trans hc)
          have hknown : knownAt f p = known := by simp [knownAt, hget]
          rw [hknown] at hstep
          rw [← hd] at hstep
          exact hstep

structure Walking (h : History κ) (heads : OrdSet κ) (visited : List κ)
    (f : Frontier κ (Reach κ)) : Prop where
  sweep : Sweep h 0 heads visited f
  route : ∀ {id e x l}, f.get? id = some e → e.2.get? x = some l →
    x ∈ heads ∧ ∃ edges, h.Route id x edges ∧ l = Accumulator.squashed.fold edges
  known : ∀ {a x}, x ∈ heads → h.Ancestor a x → a ∉ visited →
    ∃ b e l, f.get? b = some e ∧ h.Ancestor a b ∧ e.2.get? x = some l
  short : ∀ {w}, w ∈ visited → ∃ x ∈ heads, ¬h.Ancestor w x

namespace Walking

variable {h : History κ} {visited : List κ} {f rest : Frontier κ (Reach κ)} {c : Commit κ}
  {reached : Reach κ}

/-- A common ancestor is below some commit on the frontier. -/
theorem below_frontier (hw : Walking h heads visited f) {a : κ} (hne : ∃ x, x ∈ heads)
    (ha : ∀ x ∈ heads, h.Ancestor a x) : ∃ b e, f.get? b = some e ∧ h.Ancestor a b := by
  have hn : a ∉ visited := fun hv => by
    obtain ⟨x, hx, hno⟩ := hw.short hv
    exact hno (ha x hx)
  obtain ⟨x, hx⟩ := hne
  obtain ⟨b, e, l, he, hab, -⟩ := hw.known hx (ha x hx) hn
  exact ⟨b, e, he, hab⟩

/-- The commit that is visited next knows the heads above it. -/
theorem mem_reached_iff (hw : Walking h heads visited f) (hg : h.Graded)
    (hpop : f.pop? = some ((c, reached), rest)) {x : κ} (hx : x ∈ heads) :
    (∃ l, reached.get? x = some l) ↔ h.Ancestor c.id x := by
  obtain ⟨he, hc, -, hall⟩ := hw.sweep.pop hg hpop
  constructor
  · rintro ⟨l, hl⟩
    obtain ⟨-, edges, hr, -⟩ := hw.route he hl
    exact hr.ancestor
  · intro ha
    obtain ⟨b, e, l, hb, hcb, hl⟩ := hw.known hx ha (hw.sweep.unvisited he)
    have hbc : c.id = b := by
      obtain ⟨c', hc', hle⟩ := hg.ancestor_level hcb (hw.sweep.entry hb)
      rw [hc] at hc'
      cases hc'
      rcases hle with heq | hlt
      · exact heq
      · rcases hall b e hb with heq | hlow
        · exact heq.symm
        · exact absurd hlt (Nat.not_lt.2 hlow.level_le)
    subst hbc
    rw [he] at hb
    cases hb
    exact ⟨l, hl⟩

theorem mem_heads (hw : Walking h heads visited f) (hg : h.Graded)
    (hpop : f.pop? = some ((c, reached), rest)) {x : κ} {l : List Operation}
    (hl : reached.get? x = some l) : x ∈ heads :=
  (hw.route (hw.sweep.pop hg hpop).1 hl).1

/-- It knows as many heads as there are just if all heads descend from it. -/
theorem size_eq_iff (hw : Walking h heads visited f) (hg : h.Graded)
    (hpop : f.pop? = some ((c, reached), rest)) :
    reached.size = heads.size ↔ ∀ x ∈ heads, h.Ancestor c.id x := by
  have hkeys : reached.keys ⊆ heads.toList := fun x hx => by
    obtain ⟨l, hl⟩ := OrdMap.mem_keys.1 hx
    exact hw.mem_heads hg hpop hl
  have hsub : reached.keys.Subperm heads.toList := (OrdMap.nodup_keys _).subperm hkeys
  rw [← OrdMap.length_keys]
  constructor
  · intro hsize x hx
    have hperm : reached.keys.Perm heads.toList :=
      hsub.perm_of_length_le (Nat.le_of_eq hsize.symm)
    exact (hw.mem_reached_iff hg hpop hx).1 (OrdMap.mem_keys.1 (hperm.mem_iff.2 hx))
  · intro hall
    have hsub' : heads.toList.Subperm reached.keys := heads.nodup_toList.subperm fun x hx =>
      OrdMap.mem_keys.2 ((hw.mem_reached_iff hg hpop hx).2 (hall x hx))
    exact Nat.le_antisymm hsub.length_le hsub'.length_le

theorem isNearest (hw : Walking h heads visited f) (hg : h.Graded) (hne : ∃ x, x ∈ heads)
    (hpop : f.pop? = some ((c, reached), rest)) (hc : ∀ x ∈ heads, h.Ancestor c.id x) :
    h.IsNearest heads c.id := by
  refine ⟨hc, fun {b ca cb} hb hca hcb => ?_⟩
  obtain ⟨-, hc', -, -⟩ := hw.sweep.pop hg hpop
  obtain rfl : c = ca := Option.some.inj (hc'.symm.trans hca)
  obtain ⟨d, e, hd, hbd⟩ := hw.below_frontier hne hb
  exact hw.sweep.eq_or_lower hg hpop hd hbd hcb

theorem renewed (hw : Walking h heads visited f) (hg : h.Graded)
    (hpop : f.pop? = some ((c, reached), rest)) {g : Frontier κ (Reach κ)}
    (hspread : Spread h reached c.parents.toList rest g) : Sweep.Renewed h 0 c.id rest g := by
  obtain ⟨-, hc, -, -⟩ := hw.sweep.pop hg hpop
  constructor
  · intro id x hx
    by_cases hid : id ∈ c.parents.toList.map Prod.fst
    · obtain ⟨e, hmem, rfl⟩ := List.mem_map.1 hid
      obtain ⟨d, hd, hx'⟩ := hspread.2 e.1 e.2 hmem
      cases hx.symm.trans hx'
      exact ⟨hd, .inr ⟨⟨c, e.2, hc, OrdMap.get?_eq_some_iff.2 hmem⟩, Nat.zero_le _⟩⟩
    · rw [hspread.1 id hid] at hx
      exact ⟨hw.sweep.entry (hw.sweep.get?_of_rest hg hpop hx).1, .inl ⟨x, hx⟩⟩
  · intro id y hy
    obtain ⟨x, hx, -⟩ := hspread.kept hy
    exact ⟨x, hx⟩
  · intro p d hp _ _
    obtain ⟨c', edge, hc', hedge⟩ := hp
    cases hc.symm.trans hc'
    obtain ⟨d, -, hd⟩ := hspread.2 p edge (OrdMap.get?_eq_some_iff.1 hedge)
    exact ⟨_, hd⟩

theorem visit (hw : Walking h heads visited f) (hg : h.Graded)
    (hpop : f.pop? = some ((c, reached), rest)) {g : Frontier κ (Reach κ)}
    (hspread : Spread h reached c.parents.toList rest g)
    (hshort : ∃ x ∈ heads, ¬h.Ancestor c.id x) : Walking h heads (c.id :: visited) g := by
  obtain ⟨he, hc, hget, -⟩ := hw.sweep.pop hg hpop
  constructor
  · exact hw.sweep.visit hg hpop (hw.renewed hg hpop hspread)
  · intro id x z l hx hl
    rcases hspread.origin hx hl with ⟨y, hy, hl⟩ | ⟨edge, k, hmem, hk, rfl⟩
    · exact hw.route (hw.sweep.get?_of_rest hg hpop hy).1 hl
    · obtain ⟨hz, edges, hr, rfl⟩ := hw.route he hk
      exact ⟨hz, edge :: edges, .cons hc (OrdMap.get?_eq_some_iff.2 hmem) hr, rfl⟩
  · intro a x hx ha hv
    rw [List.mem_cons, not_or] at hv
    obtain ⟨b, e, l, hb, hab, hl⟩ := hw.known hx ha hv.2
    by_cases hbc : b = c.id
    · -- the head is handed on to the parent that is on the way to the commit
      subst hbc
      cases he.symm.trans hb
      obtain ⟨p, hap, c', edge, hc', hedge⟩ := hab.cases_parent.resolve_left hv.1
      cases hc.symm.trans hc'
      obtain ⟨y, l', hy, hl'⟩ := hspread.handed (OrdMap.get?_eq_some_iff.1 hedge) hl
      exact ⟨p, y, l', hy, hap, hl'⟩
    · obtain ⟨y, hy, hkeep⟩ := hspread.kept (by rw [hget, if_neg hbc, hb])
      exact ⟨b, y, l, hy, hab, hkeep x l hl⟩
  · intro w hwv
    rcases List.mem_cons.1 hwv with rfl | hwv
    · exact hshort
    · exact hw.short hwv

end Walking

def noneFault (heads : OrdSet κ) : Fault :=
  .notFound ("common ancestor of heads " ++ heads.inMessage)

variable {v : View κ} {P : CommonAncestor κ → Prop} {E : Fault → Prop}

theorem reads_walk (hg : v.commits.Graded) (hne : ∃ x, x ∈ heads)
    (hP : ∀ a, v.commits.IsNearest heads a.commit →
      v.commits.PathsFrom heads a.commit a.paths → P a)
    (hnone : (¬∃ a, ∀ x ∈ heads, v.commits.Ancestor a x) → E (noneFault heads))
    (hE : ∀ e, v.fails e → E e) {fuel : Nat} {seen : OrdSet κ} {visited : List κ}
    {f : Frontier κ (Reach κ)} (hseen : ∀ id, id ∈ seen ↔ id ∈ visited)
    (hw : Walking v.commits heads visited f)
    (hfuel : v.commits.size ≤ fuel + visited.length) : (walk heads fuel seen f).Reads v P E := by
  induction fuel generalizing seen visited f with
  | zero =>
      refine reads_fail (hnone ?_)
      rintro ⟨a, ha⟩
      obtain ⟨b, e, he, -⟩ := hw.below_frontier hne ha
      have hlt := hw.sweep.course.length_lt he
      omega
  | succ fuel ih =>
      unfold walk
      split
      next hpop =>
        refine reads_fail (hnone ?_)
        rintro ⟨a, ha⟩
        obtain ⟨b, e, he, -⟩ := hw.below_frontier hne ha
        rw [Frontier.pop?_eq_none hpop] at he
        cases he
      next c reached rest hpop =>
        obtain ⟨he, hc, -, -⟩ := hw.sweep.pop hg hpop
        have hsize := hw.size_eq_iff hg hpop
        split
        next heq =>
          have hcommon := hsize.1 heq
          refine reads_pure (hP _ (hw.isNearest hg hne hpop hcommon) ⟨fun x hx => ?_, ?_⟩)
          · exact (hw.mem_reached_iff hg hpop hx).2 (hcommon x hx)
          · exact fun x l hl => hw.route he hl
        next hlt =>
          have hshort : ∃ x ∈ heads, ¬v.commits.Ancestor c.id x := by
            by_contra hno
            push Not at hno
            exact hlt (hsize.2 hno)
          apply Reads.bind
          apply reads_spreadAll (OrdMap.nodup_keys c.parents) _ _ _ hE
          · rintro ⟨p, edge⟩ hp
            have hp' : v.commits.IsParent p c.id :=
              ⟨c, edge, hc, OrdMap.get?_eq_some_iff.2 hp⟩
            refine ⟨fun hin => ?_, hg.exists_of_isParent hp'⟩
            rcases OrdSet.mem_insert.1 hin with heq | hin
            · obtain rfl : p = c.id := heq
              exact Nat.lt_irrefl _ (hg.parent_level hp' hc hc)
            · exact hw.sweep.parent_unvisited hg hpop hp' ((hseen p).1 hin)
          · intro id e hid
            exact hw.sweep.entry (hw.sweep.get?_of_rest hg hpop hid).1
          · intro g hspread
            refine ih (fun id => ?_) (hw.visit hg hpop hspread hshort) ?_
            · rw [OrdSet.mem_insert, hseen, List.mem_cons]
            · rw [List.length_cons]
              omega

/-- The nearest common ancestor of stored heads is found if they have a common ancestor at all. -/
theorem reads_find (hg : v.commits.Graded) (hne : ∃ x, x ∈ heads) {commits : List (Commit κ)}
    (hcommits : heads.toList.map v.commits.get? = commits.map some)
    (hP : ∀ a, v.commits.IsNearest heads a.commit →
      v.commits.PathsFrom heads a.commit a.paths → P a)
    (hnone : (¬∃ a, ∀ x ∈ heads, v.commits.Ancestor a x) → E (noneFault heads))
    (hE : ∀ e, v.fails e → E e) : (find heads commits).Reads v P E := by
  apply Reads.bind
  apply reads_countCommits _ hE
  intro n hn
  have hget := Frontier.get?_add_loaded (fun _ _ => hg.filed) hcommits fun c =>
    (OrdMap.single c.id [] : Reach κ)
  have hmem := mem_of_map_get? hcommits
  have hheads : ∀ x ∈ heads, ∃ c, v.commits.get? x = some c ∧ 0 ≤ c.level := by
    intro x hx
    have hin : v.commits.get? x ∈ commits.map some := hcommits ▸ List.mem_map.2 ⟨x, hx, rfl⟩
    obtain ⟨c, -, hc⟩ := List.mem_map.1 hin
    exact ⟨c, hc.symm, Nat.zero_le _⟩
  have hw : Walking v.commits heads [] (Frontier.add ∅
      (commits.map fun c => (c, OrdMap.single c.id []))) := by
    constructor
    · exact Sweep.start hg hcommits hheads _
    · intro id e x l he hl
      obtain ⟨hid, c, hc, rfl⟩ := (hget id e).1 he
      rw [OrdMap.get?_single] at hl
      split at hl
      next hx =>
        cases hl
        obtain rfl : x = id := hx.trans (hg.filed hc)
        exact ⟨hid, [], .nil x, rfl⟩
      next => cases hl
    · intro a x hx ha _
      obtain ⟨c, hc, -⟩ := hheads x hx
      refine ⟨x, _, [], (hget x _).2 ⟨hx, c, hc, rfl⟩, ha, ?_⟩
      rw [OrdMap.get?_single, if_pos (hg.filed hc).symm]
    · simp
  exact reads_walk hg hne hP hnone hE
    (fun id => iff_of_false (OrdSet.not_mem_empty id) List.not_mem_nil) hw hn

end CommonAncestor

end Confluence
