import Confluence.Proofs.History.Merge
import Confluence.Proofs.Repository.Responses

/-!
# Reading two stores in step

A program that walks down from some heads learns nothing of what lies elsewhere. Where one store
mirrors another within a scope that contains the heads with their ancestors, the two walks stand at
the same point after every visit, up to timestamps, and end in the same way. The numbers of stored
commits may differ: either number is enough for its own walk. If the mirror is strict, what is
missing in one store is missing in the other, so that the walks also fail alike; otherwise only
those walks that do not fail are followed.
-/

namespace Confluence

variable {κ : Type} [CommitId κ]

/-- Within a scope that is closed under parents the second history holds the commits of the first
one, up to timestamps, and if it is strict no others. -/
structure History.Mirrors (strict : Prop) (h g : History κ) (scope : κ → Prop) : Prop where
  closed : ∀ {id c p}, scope id → h.get? id = some c → p ∈ c.parentIds → scope p
  alike : ∀ {id c}, scope id → h.get? id = some c → ∃ d, g.get? id = some d ∧ d.untimed = c.untimed
  absent : strict → ∀ {id}, scope id → h.get? id = none → g.get? id = none

/-! ## Programs -/

namespace Program

variable {α β γ δ : Type} {strict : Prop} {rule : IdRule κ} {s t : Store κ}

/-- Two programs that only read return related values or, where the second one is strict, fail
alike. -/
def Follows (strict : Prop) (rule : IdRule κ) (s t : Store κ) (R : α → β → Prop)
    (p : Program κ α) (q : Program κ β) : Prop :=
  (∃ a b, p.run (Store.repository rule) s = (.ok a, s) ∧
    q.run (Store.repository rule) t = (.ok b, t) ∧ R a b) ∨
  ∃ e, p.run (Store.repository rule) s = (.error e, s) ∧
    (strict → q.run (Store.repository rule) t = (.error e, t))

variable {R : α → β → Prop} {R' : γ → δ → Prop} {p : Program κ α} {q : Program κ β}

theorem follows_pure {a : α} {b : β} (h : R a b) :
    Follows strict rule s t R (pure a) (pure b) := .inl ⟨a, b, rfl, rfl, h⟩

theorem follows_fail (e : Fault) : Follows strict rule s t R (fail e) (fail e) :=
  .inr ⟨e, rfl, fun _ => rfl⟩

theorem follows_ofExcept {R : α → α → Prop} (o : Except Fault α) (h : ∀ a, o = .ok a → R a a) :
    Follows strict rule s t R (ofExcept o) (ofExcept o) := by
  cases o with
  | ok a => exact follows_pure (h a rfl)
  | error e => exact follows_fail e

theorem Follows.bind {f : α → Program κ γ} {g : β → Program κ δ}
    (h : Follows strict rule s t R p q)
    (hfg : ∀ a b, R a b → Follows strict rule s t R' (f a) (g b)) :
    Follows strict rule s t R' (p >>= f) (q >>= g) := by
  rcases h with ⟨a, b, hp, hq, hab⟩ | ⟨e, hp, hq⟩
  · rw [Follows, run_bind_ok hp, run_bind_ok hq]
    exact hfg a b hab
  · exact .inr ⟨e, run_bind_error hp, fun hstrict => run_bind_error (hq hstrict)⟩

theorem run_loadCommit {id : κ} {c : Commit κ} (hc : s.commits.get? id = some c) :
    (loadCommit id).run (Store.repository rule) s = (.ok c, s) := by
  change s.answer rule (.loadCommit id) = _
  simp only [Store.answer, hc]

theorem run_loadCommit_missing {id : κ} (hid : s.commits.get? id = none) :
    (loadCommit id).run (Store.repository rule) s = (.error (Store.missing id), s) := by
  change s.answer rule (.loadCommit id) = _
  simp only [Store.answer, hid]

theorem follows_countCommits :
    Follows strict rule s t (fun m n => m = s.commits.size ∧ n = t.commits.size)
      (countCommits : Program κ Nat) countCommits :=
  .inl ⟨_, _, rfl, rfl, rfl, rfl⟩

variable {scope : κ → Prop}

theorem follows_loadCommit (hm : History.Mirrors strict s.commits t.commits scope) {id : κ}
    (hid : scope id) :
    Follows strict rule s t (fun c d => s.commits.get? id = some c ∧ t.commits.get? id = some d ∧
      d.untimed = c.untimed) (loadCommit id) (loadCommit id) := by
  cases hc : s.commits.get? id with
  | some c =>
      obtain ⟨d, hd, hsame⟩ := hm.alike hid hc
      exact .inl ⟨c, d, run_loadCommit hc, run_loadCommit hd, rfl, hd, hsame⟩
  | none =>
      refine .inr ⟨_, run_loadCommit_missing hc, fun hstrict => ?_⟩
      exact run_loadCommit_missing (hm.absent hstrict hid hc)

theorem follows_loadCommits (hm : History.Mirrors strict s.commits t.commits scope) {ids : List κ}
    (hids : ∀ id ∈ ids, scope id) :
    Follows strict rule s t (fun cs ds => ids.map s.commits.get? = cs.map some ∧
      ids.map t.commits.get? = ds.map some ∧ ds.map Commit.untimed = cs.map Commit.untimed)
      (loadCommits ids) (loadCommits ids) := by
  induction ids with
  | nil => exact follows_pure ⟨rfl, rfl, rfl⟩
  | cons id ids ih =>
      refine (follows_loadCommit hm (hids id List.mem_cons_self)).bind ?_
      rintro c d ⟨hc, hd, hsame⟩
      refine (ih fun i hi => hids i (List.mem_cons_of_mem id hi)).bind ?_
      rintro cs ds ⟨hcs, hds, hsames⟩
      apply follows_pure
      simp only [List.map_cons, hc, hd, hsame, hcs, hds, hsames, and_self]

end Program

/-! ## The walk to a common ancestor -/

namespace CommonAncestor

open History Program

variable {strict : Prop} {rule : IdRule κ} {s t : Store κ} {scope : κ → Prop} {heads : OrdSet κ}

structure Paired (h g : History κ) (scope : κ → Prop) (heads : OrdSet κ) (visited : List κ)
    (f f' : Frontier κ (Reach κ)) : Prop where
  left : Course h visited f
  right : Course g visited f'
  same : f'.untimed = f.untimed
  inScope : ∀ {id e}, f.get? id = some e → scope id
  known : ∀ {id e x l}, f.get? id = some e → e.2.get? x = some l → x ∈ heads

namespace Paired

variable {h g : History κ} {visited : List κ} {f f' rest : Frontier κ (Reach κ)} {c : Commit κ}
  {reached : Reach κ}

theorem get?_eq (hp : Paired h g scope heads visited f f') (id : κ) :
    (f'.get? id).map Frontier.untimedEntry = (f.get? id).map Frontier.untimedEntry := by
  rw [← Frontier.get?_untimed, ← Frontier.get?_untimed, hp.same]

theorem insert (hp : Paired h g scope heads visited f f') {id : κ} {d : Commit κ}
    (hc : h.get? id = some c) (hd : g.get? id = some d) (hsame : d.untimed = c.untimed)
    (hnew : id ∉ visited) (hid : scope id)
    (hreached : ∀ x l, reached.get? x = some l → x ∈ heads) :
    Paired h g scope heads visited (f.insert id (c, reached)) (f'.insert id (d, reached)) := by
  refine ⟨hp.left.insert hc hnew reached, hp.right.insert hd hnew reached, ?_,
    fun {i e} he => ?_, fun {i e x l} he hl => ?_⟩
  · rw [Frontier.untimed_insert, Frontier.untimed_insert, hp.same, Frontier.untimedEntry,
      Frontier.untimedEntry, hsame]
  · rw [OrdMap.get?_insert] at he
    split at he
    next hi => exact hi ▸ hid
    next => exact hp.inScope he
  · rw [OrdMap.get?_insert] at he
    split at he
    next =>
      cases he
      exact hreached x l hl
    next => exact hp.known he hl

theorem pop?_eq_none (hp : Paired h g scope heads visited f f') (hpop : f.pop? = none) :
    f'.pop? = none := by
  have hsame := Frontier.pop?_untimed f'
  rw [hp.same, Frontier.pop?_untimed, hpop, Option.map_none] at hsame
  exact Option.map_eq_none_iff.1 hsame.symm

/-- Both walks visit the same commit next. -/
theorem pop (hp : Paired h g scope heads visited f f') (hh : h.Filed) (hg : g.Filed)
    (hpop : f.pop? = some ((c, reached), rest)) :
    ∃ d rest', f'.pop? = some ((d, reached), rest') ∧ d.untimed = c.untimed ∧
      h.get? c.id = some c ∧ scope c.id ∧ (∀ x l, reached.get? x = some l → x ∈ heads) ∧
      Paired h g scope heads (c.id :: visited) rest rest' := by
  have hsame := Frontier.pop?_untimed f'
  rw [hp.same, Frontier.pop?_untimed, hpop, Option.map_some] at hsame
  obtain ⟨⟨⟨d, known⟩, rest'⟩, hpop', heq⟩ := Option.map_eq_some_iff.1 hsame.symm
  simp only [Frontier.untimedEntry, Prod.mk.injEq] at heq
  obtain ⟨⟨hd, rfl⟩, hrest⟩ := heq
  obtain ⟨hc, hget, hleft⟩ := hp.left.pop hh hpop
  obtain ⟨-, -, hright⟩ := hp.right.pop hg hpop'
  have hid : d.id = c.id := by rw [← Commit.untimed_id d, hd, Commit.untimed_id]
  exact ⟨d, rest', hpop', hd, hp.left.entry hc, hp.inScope hc, fun x l hl => hp.known hc hl,
    hleft, hid ▸ hright, hrest, fun he => hp.inScope (hget _ _ he),
    fun he hl => hp.known (hget _ _ he) hl⟩

end Paired

theorem mem_heads_of_spread {edge : List Operation} {reached known : Reach κ}
    (hreached : ∀ x l, reached.get? x = some l → x ∈ heads)
    (hknown : ∀ x l, known.get? x = some l → x ∈ heads) :
    ∀ x l, (spread edge reached known).get? x = some l → x ∈ heads := by
  intro x l hl
  rw [get?_spread, Option.or_eq_some_iff] at hl
  rcases hl with hl | ⟨-, hl⟩
  · exact hknown x l hl
  · obtain ⟨k, hk, -⟩ := Option.map_eq_some_iff.1 hl
    exact hreached x k hk

theorem follows_spreadAll (hm : Mirrors strict s.commits t.commits scope) {seen : OrdSet κ}
    {visited : List κ} (hseen : ∀ id, id ∈ seen ↔ id ∈ visited) {reached : Reach κ}
    (hreached : ∀ x l, reached.get? x = some l → x ∈ heads) {edges : List (κ × List Operation)}
    (hedges : ∀ e ∈ edges, scope e.1) {f f' : Frontier κ (Reach κ)}
    (hp : Paired s.commits t.commits scope heads visited f f') :
    Follows strict rule s t (Paired s.commits t.commits scope heads visited)
      (spreadAll seen reached edges f) (spreadAll seen reached edges f') := by
  induction edges generalizing f f' with
  | nil => exact follows_pure hp
  | cons e edges ih =>
      obtain ⟨p, edge⟩ := e
      have hscope : scope p := hedges (p, edge) List.mem_cons_self
      have hnext {g g' : Frontier κ (Reach κ)}
          (hp : Paired s.commits t.commits scope heads visited g g') :=
        ih (fun e he => hedges e (List.mem_cons_of_mem _ he)) hp
      unfold spreadAll
      split
      next => exact hnext hp
      next hnew =>
        rw [OrdSet.contains_iff_mem, hseen] at hnew
        have hget := hp.get?_eq p
        cases hf : f.get? p with
        | some e =>
            obtain ⟨c, known⟩ := e
            rw [hf, Option.map_some] at hget
            obtain ⟨⟨d, known'⟩, hf', heq⟩ := Option.map_eq_some_iff.1 hget
            obtain ⟨hd, rfl⟩ := Prod.mk.injEq .. ▸ heq
            rw [hf']
            refine hnext (hp.insert (hp.left.entry hf) (hp.right.entry hf') hd hnew hscope ?_)
            exact mem_heads_of_spread hreached fun x l hl => hp.known hf hl
        | none =>
            rw [hf, Option.map_none, Option.map_eq_none_iff] at hget
            rw [hget]
            refine (follows_loadCommit hm hscope).bind ?_
            rintro c d ⟨hc, hd, hsame⟩
            refine hnext (hp.insert hc hd hsame hnew hscope ?_)
            exact mem_heads_of_spread hreached fun x l hl => by cases hl

theorem walk_of_pop?_eq_none {seen : OrdSet κ} {f : Frontier κ (Reach κ)} (hpop : f.pop? = none)
    (fuel : Nat) : walk heads fuel seen f = fail (noneFault heads) := by
  cases fuel with
  | zero => rfl
  | succ fuel =>
      unfold walk
      rw [hpop]
      rfl

/-- Both walks run out of commits together. -/
theorem Paired.follows_noneFault {visited : List κ} {f f' : Frontier κ (Reach κ)}
    (hp : Paired s.commits t.commits scope heads visited f f') (hpop : f.pop? = none)
    {R : CommonAncestor κ → CommonAncestor κ → Prop} {fuel fuel' : Nat} {seen : OrdSet κ} :
    Follows strict rule s t R (walk heads fuel seen f) (walk heads fuel' seen f') := by
  rw [walk_of_pop?_eq_none hpop, walk_of_pop?_eq_none (hp.pop?_eq_none hpop)]
  exact follows_fail _

theorem follows_walk (hm : Mirrors strict s.commits t.commits scope) (hs : Filed s.commits)
    (ht : Filed t.commits) {fuel fuel' : Nat} {seen : OrdSet κ} {visited : List κ}
    (hseen : ∀ id, id ∈ seen ↔ id ∈ visited) {f f' : Frontier κ (Reach κ)}
    (hp : Paired s.commits t.commits scope heads visited f f')
    (hfuel : s.commits.size ≤ fuel + visited.length)
    (hfuel' : t.commits.size ≤ fuel' + visited.length) :
    Follows strict rule s t (fun a b => b = a ∧ ∀ x l, a.paths.get? x = some l → x ∈ heads)
      (walk heads fuel seen f) (walk heads fuel' seen f') := by
  induction fuel generalizing fuel' seen visited f f' with
  | zero =>
      cases hpop : f.pop? with
      | none => exact hp.follows_noneFault hpop
      | some e =>
          -- A walk out of fuel has visited every stored commit, and none of them comes back.
          have hlt := hp.left.length_lt (hp.left.pop hs hpop).1
          omega
  | succ fuel ih =>
      cases hpop : f.pop? with
      | none => exact hp.follows_noneFault hpop
      | some e =>
          obtain ⟨⟨c, reached⟩, rest⟩ := e
          obtain ⟨d, rest', hpop', hd, hc, hscope, hreached, hrest⟩ := hp.pop hs ht hpop
          have hid : d.id = c.id := by rw [← Commit.untimed_id d, hd, Commit.untimed_id]
          have hparents : d.parents = c.parents := by
            rw [← Commit.untimed_parents d, hd, Commit.untimed_parents]
          cases fuel' with
          | zero =>
              have hlt := hp.right.length_lt (hp.right.pop ht hpop').1
              omega
          | succ fuel' =>
              simp only [walk, hpop, hpop', hid, hparents]
              split
              next => exact follows_pure ⟨rfl, hreached⟩
              next =>
                have hseen' (id : κ) : id ∈ seen.insert c.id ↔ id ∈ c.id :: visited := by
                  rw [OrdSet.mem_insert, hseen, List.mem_cons]
                have hedges : ∀ e ∈ c.parents.toList, scope e.1 := fun e he =>
                  hm.closed hscope hc (List.mem_map.2 ⟨e, he, rfl⟩)
                refine (follows_spreadAll hm hseen' hreached hedges hrest).bind ?_
                intro g g' hg
                refine ih hseen' hg ?_ ?_
                all_goals
                  rw [List.length_cons]
                  omega

theorem follows_find (hm : Mirrors strict s.commits t.commits scope) (hs : Filed s.commits)
    (ht : Filed t.commits) (hheads : ∀ x ∈ heads, scope x) {cs ds : List (Commit κ)}
    (hcs : heads.toList.map s.commits.get? = cs.map some)
    (hds : heads.toList.map t.commits.get? = ds.map some)
    (hsame : ds.map Commit.untimed = cs.map Commit.untimed) :
    Follows strict rule s t (fun a b => b = a ∧ ∀ x l, a.paths.get? x = some l → x ∈ heads)
      (find heads cs) (find heads ds) := by
  refine follows_countCommits.bind ?_
  rintro m n ⟨rfl, rfl⟩
  have hget := Frontier.get?_add_loaded hs hcs fun c => (OrdMap.single c.id [] : Reach κ)
  refine follows_walk hm hs ht (fun id => iff_of_false (OrdSet.not_mem_empty id) List.not_mem_nil)
    ⟨.start hs hcs _, .start ht hds _, ?_, fun {id e} he => ?_, fun {id e x l} he hl => ?_⟩
    (Nat.le_refl _) (Nat.le_refl _)
  · have hentries (l : List (Commit κ)) :
        (l.map fun c => (c, (OrdMap.single c.id [] : Reach κ))).map Frontier.untimedEntry =
          (l.map Commit.untimed).map fun c => (c, OrdMap.single c.id []) := by
      simp [Function.comp_def, Frontier.untimedEntry]
    rw [Frontier.untimed_add, Frontier.untimed_add, hentries, hentries, hsame]
  · exact hheads id ((hget id e).1 he).1
  · obtain ⟨hid, c, hc, rfl⟩ := (hget id e).1 he
    rw [OrdMap.get?_single] at hl
    split at hl
    next hx =>
      rw [hx, hs id c hc]
      exact hid
    next => cases hl

end CommonAncestor

/-! ## Plans -/

namespace Merge

open History Program

variable {strict : Prop} {rule : IdRule κ} {s t : Store κ} {scope : κ → Prop} {heads : OrdSet κ}

/-- Both stores plan the same merge, and its edges come from heads below it. -/
theorem follows_plan (hm : Mirrors strict s.commits t.commits scope) (hs : Filed s.commits)
    (ht : Filed t.commits) (hheads : ∀ x ∈ heads, scope x) :
    Follows strict rule s t (fun p q => q = p ∧ ∀ x e, p.edges.get? x = some e →
      x ∈ heads ∧ ∃ c, s.commits.get? x = some c ∧ c.level < p.level)
      (plan heads) (plan heads) := by
  refine (follows_loadCommits hm hheads).bind ?_
  rintro cs ds ⟨hcs, hds, hsame⟩
  have hfold (f : Commit κ → Nat) (hf : ∀ c, f c.untimed = f c) :
      ds.foldl (fun n c => max n (f c)) 0 = cs.foldl (fun n c => max n (f c)) 0 := by
    have hmap (l : List (Commit κ)) : l.foldl (fun n c => max n (f c)) 0 =
        (l.map Commit.untimed).foldl (fun n c => max n (f c)) 0 := by
      rw [List.foldl_map]
      simp only [hf]
    rw [hmap ds, hmap cs, hsame]
  refine (CommonAncestor.follows_find hm hs ht hheads hcs hds hsame).bind ?_
  rintro _ a ⟨rfl, hpaths⟩
  refine (follows_ofExcept (R := fun e d => d = e ∧ combine a.paths = .ok e) _
    fun e he => ⟨rfl, he⟩).bind ?_
  rintro _ edges ⟨rfl, hedges⟩
  have hepoch : newestEpoch ds = newestEpoch cs := hfold Commit.epoch fun _ => rfl
  rw [hepoch, hfold Commit.level fun _ => rfl]
  refine follows_pure ⟨rfl, fun x e he => ?_⟩
  obtain ⟨l, hl⟩ := (keys_combine hedges x).1 ⟨e, he⟩
  have hx : x ∈ heads := hpaths x l hl
  have hin : s.commits.get? x ∈ cs.map some := hcs ▸ List.mem_map.2 ⟨x, hx, rfl⟩
  obtain ⟨c, hc, hget⟩ := List.mem_map.1 hin
  have hle := (foldl_max Commit.level cs 0).2.1 c hc
  exact ⟨hx, c, hget.symm, Nat.lt_succ_of_le hle⟩

end Merge

end Confluence
