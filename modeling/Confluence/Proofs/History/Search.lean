import Confluence.Proofs.History.Tips

/-!
# What searches find

A search is a sweep without a floor. With every commit on its frontier it keeps what the accumulator
makes of the edges of a route from the commit up to a head. Commits are visited from the greatest
down, so the first one that the probe accepts is the greatest among the heads and their ancestors,
and a search fails only if none of them is accepted.
-/

namespace Confluence

variable {κ : Type} [CommitId κ] {α τ : Type}

namespace History

structure PathFrom (h : History κ) (heads : OrdSet κ) (acc : Accumulator α) (a : κ)
    (path : Path κ α) : Prop where
  mem : path.child ∈ heads
  child : ∃ c, h.get? path.child = some c ∧ path.childLevel = c.level ∧ path.epoch = c.epoch
  route : ∃ edges, h.Route a path.child edges ∧ path.diffs = acc.fold edges

/-- A commit that a search may end at: the greatest one below the heads that is accepted. -/
structure IsFound (h : History κ) (heads : OrdSet κ) (acc : Accumulator α)
    (accepts : Commit κ → Option τ) (found : Found κ α τ) : Prop where
  path : h.PathFrom heads acc found.commit found.path
  accepted : ∃ c, h.get? found.commit = some c ∧ accepts c = some found.value
  greatest : ∀ {b x c d}, x ∈ heads → h.Ancestor b x → h.get? b = some c →
    h.get? found.commit = some d → accepts c ≠ none → b = found.commit ∨ c.Lower d

end History

namespace Search

open History Program

variable {acc : Accumulator α} {accepts : Commit κ → Option τ} {heads : OrdSet κ}

/-- What holds of a search: it is a sweep, what it has seen it has met, the commits on the frontier
have their routes, and no visited commit was accepted. -/
structure Walking (h : History κ) (heads : OrdSet κ) (acc : Accumulator α)
    (accepts : Commit κ → Option τ) (visited : List κ) (s : State κ α) : Prop where
  sweep : Sweep h 0 heads visited s.frontier
  seen : ∀ {id}, id ∈ s.seen → id ∈ visited ∨ ∃ e, s.frontier.get? id = some e
  path : ∀ {id e}, s.frontier.get? id = some e → h.PathFrom heads acc id e.2
  rejected : ∀ {w c}, w ∈ visited → h.get? w = some c → accepts c = none

theorem mem_zip_loaded {h : History κ} {edges : List (κ × List Operation)}
    {parents : List (Commit κ)} (hparents : (edges.map (·.1)).map h.get? = parents.map some)
    (e : Commit κ × κ × List Operation) :
    e ∈ parents.zip edges ↔ e.2 ∈ edges ∧ h.get? e.2.1 = some e.1 := by
  induction edges generalizing parents with
  | nil => simp
  | cons edge edges ih =>
      cases parents with
      | nil => simp at hparents
      | cons c parents =>
          rw [List.map_cons, List.map_cons, List.map_cons, List.cons.injEq] at hparents
          rw [List.zip_cons_cons, List.mem_cons, List.mem_cons, ih hparents.2]
          constructor
          · rintro (rfl | ⟨hmem, hget⟩)
            · exact ⟨.inl rfl, hparents.1⟩
            · exact ⟨.inr hmem, hget⟩
          · rintro ⟨heq | hmem, hget⟩
            · rw [heq, hparents.1] at hget
              exact .inl (Prod.ext (Option.some.inj hget).symm heq)
            · exact .inr ⟨hmem, hget⟩

namespace Walking

variable {h : History κ} {visited : List κ} {s : State κ α} {c : Commit κ} {path : Path κ α}
  {rest : Frontier κ (Path κ α)}

theorem extend {p : κ} {edge : List Operation} (hp : h.PathFrom heads acc c.id path)
    (hc : h.get? c.id = some c) (he : c.parents.get? p = some edge) :
    h.PathFrom heads acc p (path.extend acc edge) := by
  obtain ⟨edges, hr, hd⟩ := hp.route
  refine ⟨hp.mem, hp.child, edge :: edges, .cons hc he hr, ?_⟩
  rw [Path.extend, hd, Accumulator.fold_cons]

theorem mem_fresh {seen : OrdSet κ} {p : κ} {edge : List Operation} :
    (p, edge) ∈ fresh seen c ↔ c.parents.get? p = some edge ∧ p ∉ seen := by
  rw [fresh, List.mem_filter, ← OrdMap.get?_eq_some_iff, Bool.not_eq_true', ← Bool.not_eq_true,
    OrdSet.contains_iff_mem]

section

variable {parents : List (Commit κ)}

theorem edge_of_mem_zip (hg : h.Graded) {seen : OrdSet κ}
    (hparents : ((fresh seen c).map (·.1)).map h.get? = parents.map some) {e : Commit κ × Path κ α}
    (he : e ∈ (parents.zip (fresh seen c)).map fun e => (e.1, path.extend acc e.2.2)) :
    ∃ edge, c.parents.get? e.1.id = some edge ∧ h.get? e.1.id = some e.1 ∧
      e.2 = path.extend acc edge := by
  obtain ⟨⟨d, p, edge⟩, hmem, rfl⟩ := List.mem_map.1 he
  obtain ⟨hin, hd⟩ := (mem_zip_loaded hparents _).1 hmem
  have hdp : d.id = p := hg.filed hd
  exact ⟨edge, hdp ▸ (mem_fresh.1 hin).1, hdp ▸ hd, rfl⟩

theorem renewed (hw : Walking h heads acc accepts visited s) (hg : h.Graded)
    (hpop : s.frontier.pop? = some ((c, path), rest))
    (hparents : ((fresh s.seen c).map (·.1)).map h.get? = parents.map some) :
    Sweep.Renewed h 0 c.id rest
      (s.advance acc rest c path (fresh s.seen c) parents).frontier := by
  obtain ⟨-, hc, -, -⟩ := hw.sweep.pop hg hpop
  have hadd (id : κ) := Frontier.get?_add rest
    ((parents.zip (fresh s.seen c)).map fun e => (e.1, path.extend acc e.2.2)) id
  constructor
  · intro id x hx
    rcases hadd id with ⟨y, hy, hid, hx'⟩ | ⟨-, hx'⟩
    · cases hx.symm.trans hx'
      obtain ⟨edge, hedge, hd, -⟩ := edge_of_mem_zip hg hparents hy
      rw [hid] at hedge hd
      exact ⟨hd, .inr ⟨⟨c, edge, hc, hedge⟩, Nat.zero_le _⟩⟩
    · have hr : rest.get? id = some x := hx'.symm.trans hx
      exact ⟨hw.sweep.entry (hw.sweep.get?_of_rest hg hpop hr).1, .inl ⟨x, hr⟩⟩
  · intro id y hy
    rcases hadd id with ⟨x, -, -, hx⟩ | ⟨-, hx⟩
    · exact ⟨x, hx⟩
    · exact ⟨y, hx.trans hy⟩
  · intro p d hp hd _
    rcases hadd p with ⟨x, -, -, hx⟩ | ⟨hne, hx⟩
    · exact ⟨x, hx⟩
    · by_cases hseen : p ∈ s.seen
      · obtain ⟨y, hy⟩ := hw.sweep.exists_rest_of_parent hg hpop hp (hw.seen hseen)
        exact ⟨y, hx.trans hy⟩
      · obtain ⟨c', edge, hc', hedge⟩ := hp
        cases hc.symm.trans hc'
        have hin : (p, edge) ∈ fresh s.seen c := mem_fresh.2 ⟨hedge, hseen⟩
        refine absurd (hg.filed hd) (hne (d, path.extend acc edge) (List.mem_map.2 ?_))
        exact ⟨(d, p, edge), (mem_zip_loaded hparents _).2 ⟨hin, hd⟩, rfl⟩

/-- A visit of a commit that is not accepted, with the parents that had not been seen. -/
theorem advance (hw : Walking h heads acc accepts visited s) (hg : h.Graded)
    (hpop : s.frontier.pop? = some ((c, path), rest)) (hreject : accepts c = none)
    (hparents : ((fresh s.seen c).map (·.1)).map h.get? = parents.map some) :
    Walking h heads acc accepts (c.id :: visited)
      (s.advance acc rest c path (fresh s.seen c) parents) := by
  obtain ⟨he, hc, -, -⟩ := hw.sweep.pop hg hpop
  have hr := hw.renewed hg hpop hparents
  constructor
  · exact hw.sweep.visit hg hpop hr
  · intro id hid
    have hid : id ∈ s.seen ∨ id ∈ (fresh s.seen c).map (·.1) := OrdSet.mem_insertMany.1 hid
    rcases hid with hid | hid
    · exact hr.met hw.sweep hg hpop (hw.seen hid)
    · obtain ⟨⟨p, edge⟩, hmem, rfl⟩ := List.mem_map.1 hid
      have hp : h.IsParent p c.id := ⟨c, edge, hc, (mem_fresh.1 hmem).1⟩
      obtain ⟨d, hd⟩ := hg.exists_of_isParent hp
      exact .inr (hr.parent hp hd (Nat.zero_le _))
  · intro id x hx
    rcases Frontier.get?_add rest _ id with ⟨y, hy, hid, hx'⟩ | ⟨-, hx'⟩
    · cases hx.symm.trans hx'
      obtain ⟨edge, hedge, -, hpath⟩ := edge_of_mem_zip hg hparents hy
      rw [hid] at hedge
      rw [hpath]
      exact extend (hw.path he) hc hedge
    · exact hw.path (hw.sweep.get?_of_rest hg hpop (hx'.symm.trans hx)).1
  · intro w d hwv hd
    rcases List.mem_cons.1 hwv with rfl | hwv
    · rw [hc] at hd
      cases hd
      exact hreject
    · exact hw.rejected hwv hd

end

/-- An accepted commit below the heads is still below the frontier. -/
theorem below_frontier (hw : Walking h heads acc accepts visited s) (hg : h.Graded) {b x : κ}
    {cb : Commit κ} (hx : x ∈ heads) (hb : h.Ancestor b x) (hcb : h.get? b = some cb)
    (haccept : accepts cb ≠ none) : ∃ d e, s.frontier.get? d = some e ∧ h.Ancestor b d := by
  rcases hw.sweep.visited_or_below hg hx hb hcb (Nat.zero_le _) with hv | ⟨d, e, he, hbd, -⟩
  · exact absurd (hw.rejected hv hcb) haccept
  · exact ⟨d, e, he, hbd⟩

/-- The commit that is accepted first is found. -/
theorem isFound (hw : Walking h heads acc accepts visited s) (hg : h.Graded)
    (hpop : s.frontier.pop? = some ((c, path), rest)) {value : τ}
    (haccept : accepts c = some value) :
    h.IsFound heads acc accepts ⟨c.id, path, value⟩ := by
  obtain ⟨he, hc, -, hall⟩ := hw.sweep.pop hg hpop
  refine ⟨hw.path he, ⟨c, hc, haccept⟩, fun {b x cb d} hx hb hcb hd hb' => ?_⟩
  obtain rfl : c = d := Option.some.inj (hc.symm.trans hd)
  obtain ⟨i, e, hi, hbi⟩ := hw.below_frontier hg hx hb hcb hb'
  exact hw.sweep.eq_or_lower hg hpop hi hbi hcb

end Walking

variable {v : View κ} {E : Fault → Prop}

def Judges (v : View κ) (accepts : Commit κ → Option τ) (probe : Probe κ τ) : Prop :=
  ∀ n c, v.commits.get? c.id = some c → (probe n c).Reads v (fun o => o = accepts c) v.fails

theorem judges_isCommit (v : View κ) (id : κ) :
    Judges v (fun c => if c.id = id then some () else none) (isCommit id) :=
  fun _ _ _ => reads_pure rfl

theorem judges_hasSnapshot (v : View κ) : Judges v (fun c => v.snapshots c.id) hasSnapshot :=
  fun _ _ _ => reads_loadSnapshot rfl fun _ he => he

/-- How a search ends: it has found the commit that it looks for, no commit below the heads is
accepted, or the repository has failed. -/
def Ends (v : View κ) (heads : OrdSet κ) (acc : Accumulator α) (accepts : Commit κ → Option τ)
    (none : Fault) : Except Fault (Found κ α τ) → Prop
  | .ok found => v.commits.IsFound heads acc accepts found
  | .error e => v.fails e ∨ e = none ∧
      ∀ x ∈ heads, ∀ b c, v.commits.Ancestor b x → v.commits.get? b = some c → accepts c = .none

/-- What a search reports: visits in descending order, and among them all commits below the heads if
none of these is accepted. A search that finds a commit has visited it last. -/
structure Surveyed (v : View κ) (heads : OrdSet κ) (acc : Accumulator α)
    (accepts : Commit κ → Option τ) (none : Fault) (r : SearchReport κ α τ) : Prop where
  ends : Ends v heads acc accepts none r.outcome
  descent : Descent v.commits heads r.visits
  last : ∀ {found}, r.outcome = .ok found → r.visits.getLast? = some found.commit
  complete : r.outcome = .error none → v.fails none ∨
    ∀ {b x}, x ∈ heads → v.commits.Ancestor b x → b ∈ r.visits

theorem Walking.surveyed (hg : v.commits.Graded) {none : Fault} {visited : List κ}
    {s : State κ α} (hw : Walking v.commits heads acc accepts visited s)
    (hheads : ∀ x ∈ heads, ∃ c, v.commits.get? x = some c)
    (hempty : ∀ id, s.frontier.get? id = .none) :
    Surveyed v heads acc accepts none ⟨visited.reverse, .error none⟩ := by
  have hall {b x : κ} (hx : x ∈ heads) (hb : v.commits.Ancestor b x) : b ∈ visited := by
    obtain ⟨d, hd⟩ := hheads x hx
    obtain ⟨c, hc⟩ := hg.exists_of_ancestor hb hd
    refine (hw.sweep.visited_or_below hg hx hb hc (Nat.zero_le _)).resolve_right ?_
    rintro ⟨d, e, he, -⟩
    rw [hempty] at he
    cases he
  refine ⟨.inr ⟨rfl, fun x hx b c hb hc => hw.rejected (hall hx hb) hc⟩, hw.sweep.descent hg,
    fun h => (by cases h), fun _ => .inr fun hx hb => List.mem_reverse.2 (hall hx hb)⟩

theorem Walking.surveyed_pop (hg : v.commits.Graded) {none : Fault} {visited : List κ}
    {s : State κ α} {c : Commit κ} {path : Path κ α} {rest : Frontier κ (Path κ α)}
    (hw : Walking v.commits heads acc accepts visited s)
    (hpop : s.frontier.pop? = some ((c, path), rest)) {o : Except Fault (Found κ α τ)}
    (ho : (∃ e, v.fails e ∧ o = .error e) ∨ ∃ value, accepts c = some value ∧
      o = .ok ⟨c.id, path, value⟩) :
    Surveyed v heads acc accepts none ⟨visited.reverse ++ [c.id], o⟩ := by
  have hdescent := hw.sweep.descent_pop hg hpop
  rcases ho with ⟨e, he, rfl⟩ | ⟨value, haccept, rfl⟩
  · refine ⟨.inl he, hdescent, fun h => (by cases h), fun h => ?_⟩
    cases h
    exact .inl he
  · refine ⟨hw.isFound hg hpop haccept, hdescent, fun h => ?_, fun h => (by cases h)⟩
    cases h
    exact List.getLast?_concat ..

theorem reads_walk {probe : Probe κ τ} {none : Fault} (hg : v.commits.Graded)
    (hheads : ∀ x ∈ heads, ∃ c, v.commits.get? x = some c)
    (hprobe : Judges v accepts probe) {fuel : Nat} {visited : List κ} {s : State κ α}
    (hw : Walking v.commits heads acc accepts visited s) (hvisits : s.visits = visited.reverse)
    (hfuel : v.commits.size ≤ fuel + visited.length) :
    (walk acc probe none fuel s).Reads v (Surveyed v heads acc accepts none) E := by
  induction fuel generalizing visited s with
  | zero =>
      refine reads_pure (hvisits ▸ hw.surveyed hg hheads fun id => ?_)
      refine Option.eq_none_iff_forall_ne_some.2 fun e he => ?_
      have hlt := hw.sweep.course.length_lt he
      omega
  | succ fuel ih =>
      unfold walk
      rw [hvisits]
      split
      next hpop => exact reads_pure (hw.surveyed hg hheads (Frontier.pop?_eq_none hpop))
      next c path rest hpop =>
        obtain ⟨-, hc, -, -⟩ := hw.sweep.pop hg hpop
        apply Reads.bind
        apply Reads.attempt
        refine (hprobe _ c hc).mono ?_ fun e he =>
          reads_pure (hw.surveyed_pop hg hpop (.inl ⟨e, he, rfl⟩))
        rintro o rfl
        cases haccept : accepts c with
        | some value =>
            exact reads_pure (hw.surveyed_pop hg hpop (.inr ⟨value, haccept, rfl⟩))
        | none =>
            apply Reads.bind
            apply Reads.attempt
            refine reads_loadCommits (fun id hid => ?_) (fun parents hparents => ?_)
              fun e he => reads_pure (hw.surveyed_pop hg hpop (.inl ⟨e, he, rfl⟩))
            · obtain ⟨⟨p, edge⟩, hmem, rfl⟩ := List.mem_map.1 hid
              have hp : c.parents.get? p = some edge :=
                OrdMap.get?_eq_some_iff.2 (List.mem_filter.1 hmem).1
              exact hg.exists_of_isParent ⟨c, edge, hc, hp⟩
            · refine ih (hw.advance hg hpop haccept hparents) ?_ ?_
              · rw [List.reverse_cons, ← hvisits]
                rfl
              · rw [List.length_cons]
                omega

theorem reads_report {probe : Probe κ τ} (hg : v.commits.Graded)
    (hheads : ∀ x ∈ heads, ∃ c, v.commits.get? x = some c) (hprobe : Judges v accepts probe) :
    (report heads acc probe).Reads v (Surveyed v heads acc accepts (exhausted heads)) E := by
  apply Reads.bind
  apply Reads.attempt
  refine reads_prepare hheads (fun cs n hcs hn => ?_) fun e he => reads_pure ?_
  rotate_left
  · refine ⟨.inl he, ⟨.nil, fun h => (by cases h), fun _ _ _ h => by cases h⟩,
      fun h => (by cases h),
      fun h => ?_⟩
    cases h
    exact .inl he
  have hfloor : ∀ x ∈ heads, ∃ c, v.commits.get? x = some c ∧ 0 ≤ c.level := by
    intro x hx
    obtain ⟨c, hc⟩ := hheads x hx
    exact ⟨c, hc, Nat.zero_le _⟩
  have hget := Frontier.get?_add_loaded (fun _ _ => hg.filed) hcs fun c =>
    (⟨c.id, c.level, c.epoch, acc.start⟩ : Path κ α)
  have hw : Walking v.commits heads acc accepts [] (start acc heads cs) := by
    constructor
    · exact Sweep.start hg hcs hfloor _
    · exact (Sweep.start hg hcs hfloor _).head_met
    · intro id e he
      obtain ⟨hid, c, hc, rfl⟩ := (hget id e).1 he
      have hcid : c.id = id := hg.filed hc
      subst hcid
      exact ⟨hid, ⟨c, hc, rfl, rfl⟩, [], .nil c.id, rfl⟩
    · simp
  exact reads_walk hg hheads hprobe hw rfl hn

/-- A search of stored heads finds the greatest accepted commit below them, if there is one. -/
theorem reads_find {probe : Probe κ τ} {P : Found κ α τ → Prop} (hg : v.commits.Graded)
    (hheads : ∀ x ∈ heads, ∃ c, v.commits.get? x = some c) (hprobe : Judges v accepts probe)
    (hP : ∀ found, v.commits.IsFound heads acc accepts found → P found)
    (hnone : (∀ x ∈ heads, ∀ b c, v.commits.Ancestor b x → v.commits.get? b = some c →
      accepts c = none) → E (exhausted heads))
    (hE : ∀ e, v.fails e → E e) : (find heads acc probe).Reads v P E := by
  apply Reads.bind
  refine (reads_report hg hheads hprobe).mono (fun r hr => ?_) fun e he => he
  refine reads_ofExcept (fun found hok => ?_) fun e he => ?_
  · have hends := hr.ends
    rw [hok] at hends
    exact hP found hends
  · have hends := hr.ends
    rw [he] at hends
    rcases hends with hf | ⟨rfl, hnone'⟩
    · exact hE e hf
    · exact hnone hnone'

end Search

end Confluence
