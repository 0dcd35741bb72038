import Confluence.History.Merge
import Confluence.Proofs.Document.Transform
import Confluence.Proofs.History.CommonAncestor

/-!
# Merges

Folding the heads keeps one document to which everything folded so far leads: the operations from
the ancestor, and the edge of every head from the head's own document. Each step resolves the keys
of that document against those of the next head, so that in the end a key has the ancestor's value
if no head has changed it, and otherwise the greatest of the values to which heads have changed it.
Paths that start from one document can always be transformed, so the fold does not fail.

A merge is planned by reading alone. What the plan says of the new commit depends on the history of
the heads and on nothing that may be stored beside it.
-/

namespace Confluence

/-- The value of a key after sides that all started with one value have been merged: that value if
no side has left it, and otherwise the greatest of the others. -/
structure Reconciled (base : Option String) (sides : List (Option String)) (v : Option String) :
    Prop where
  unchanged : (∀ s ∈ sides, s = base) → v = base
  changed : (∃ s ∈ sides, s ≠ base) → v ∈ sides ∧ v ≠ base ∧
    ∀ s ∈ sides, s ≠ base → s = v ∨ Operation.prevails v s = true

namespace Reconciled

open Operation

variable {base v w : Option String} {sides : List (Option String)}

theorem nil (base : Option String) : Reconciled base [] base :=
  ⟨fun _ => rfl, fun ⟨_, hs, _⟩ => absurd hs List.not_mem_nil⟩

/-- One more side is resolved against the value of those before it. -/
theorem snoc (h : Reconciled base sides v) (w : Option String) :
    Reconciled base (sides ++ [w]) (resolve base v w) := by
  by_cases hsides : ∀ s ∈ sides, s = base
  · rw [h.unchanged hsides, resolve_left]
    constructor
    · intro hall
      exact hall w (by simp)
    · rintro ⟨s, hs, hne⟩
      have hsw : s = w := by
        rcases List.mem_append.1 hs with hs | hs
        · exact absurd (hsides s hs) hne
        · exact List.mem_singleton.1 hs
      refine ⟨by simp, hsw ▸ hne, fun u hu hune => ?_⟩
      rcases List.mem_append.1 hu with hu | hu
      · exact absurd (hsides u hu) hune
      · exact .inl (List.mem_singleton.1 hu)
  · push Not at hsides
    obtain ⟨hv, hvne, hmax⟩ := h.changed hsides
    obtain ⟨s, hs, hne⟩ := hsides
    refine ⟨fun hall => absurd (hall s (by simp [hs])) hne, fun _ => ?_⟩
    by_cases hw : w = base
    · rw [hw, resolve_right]
      refine ⟨by simp [hv], hvne, fun u hu hune => ?_⟩
      rcases List.mem_append.1 hu with hu | hu
      · exact hmax u hu hune
      · exact absurd (List.mem_singleton.1 hu) hune
    · by_cases hp : prevails v w = true
      · rw [resolve, if_neg hvne, if_neg hw, if_pos hp]
        refine ⟨by simp [hv], hvne, fun u hu hune => ?_⟩
        rcases List.mem_append.1 hu with hu | hu
        · exact hmax u hu hune
        · exact .inr (List.mem_singleton.1 hu ▸ hp)
      · rw [resolve, if_neg hvne, if_neg hw, if_neg hp]
        refine ⟨by simp, hw, fun u hmem hune => ?_⟩
        rcases List.mem_append.1 hmem with hu | hu
        · -- what gave way to the value before gives way to the new one
          have hwv : v = w ∨ prevails w v = true := by
            by_cases he : v = w
            · exact .inl he
            · exact .inr ((prevails_total he).resolve_left hp)
          rcases hwv with rfl | hwv
          · exact hmax u hu hune
          · rcases hmax u hu hune with rfl | hvu
            · exact .inr hwv
            · exact .inr (prevails_trans hwv hvu)
        · exact .inl (List.mem_singleton.1 hu)

theorem congr {sides' : List (Option String)} (h : Reconciled base sides v)
    (hmem : ∀ s, s ∈ sides ↔ s ∈ sides') : Reconciled base sides' v := by
  constructor
  · exact fun hall => h.unchanged fun s hs => hall s ((hmem s).1 hs)
  · rintro ⟨s, hs, hne⟩
    obtain ⟨hv, hvne, hmax⟩ := h.changed ⟨s, (hmem s).2 hs, hne⟩
    exact ⟨(hmem v).1 hv, hvne, fun u hu => hmax u ((hmem u).2 hu)⟩

end Reconciled

namespace Merge

open History Program

variable {κ : Type} [CommitId κ]

/-! ## Folding the heads -/

section Fold

variable {doc : κ → Document} {base : Document} {s t : State κ}

structure Folded (doc : κ → Document) (base : Document) (heads : List κ) (s : State κ)
    (m : Document) : Prop where
  merged : Document.Leads base s.merged m
  edges : ∀ {x e}, s.edges.get? x = some e → Document.Leads (doc x) e m
  values : ∀ k, Reconciled (base.get? k) (heads.map fun x => (doc x).get? k) (m.get? k)

theorem State.get?_add {e : κ × List Operation} (h : s.add e = .ok t) (x : κ) :
    (∃ l, t.edges.get? x = some l) ↔ x = e.1 ∨ ∃ l, s.edges.get? x = some l := by
  unfold State.add at h
  cases ht : Operation.transform s.merged e.2 with
  | error f =>
      rw [ht] at h
      cases h
  | ok u =>
      rw [ht] at h
      cases h
      by_cases hx : x = e.1
      · simp [OrdMap.get?_insert, hx]
      · simp [OrdMap.get?_insert, OrdMap.get?_map, hx]

theorem get?_foldlM_add {l : List (κ × List Operation)} (h : l.foldlM State.add s = .ok t)
    (x : κ) : (∃ e, t.edges.get? x = some e) ↔ x ∈ l.map Prod.fst ∨
      ∃ e, s.edges.get? x = some e := by
  induction l generalizing s with
  | nil =>
      cases h
      simp
  | cons e l ih =>
      rw [List.foldlM_cons] at h
      cases hu : s.add e with
      | error f =>
          rw [hu] at h
          cases h
      | ok u =>
          rw [hu] at h
          rw [ih h, State.get?_add hu, List.map_cons, List.mem_cons]
          tauto

theorem keys_combine {paths : Reach κ} {edges : Edges κ} (h : combine paths = .ok edges) (x : κ) :
    (∃ e, edges.get? x = some e) ↔ ∃ l, paths.get? x = some l := by
  rw [← OrdMap.mem_keys (m := paths)]
  unfold combine at h
  unfold OrdMap.keys
  split at h
  next hl =>
    cases h
    simp [hl]
  next first diffs rest hl =>
    cases hu : rest.foldlM State.add ⟨diffs, .single first []⟩ with
    | error f =>
        rw [hu] at h
        cases h
    | ok u =>
        rw [hu] at h
        cases h
        have hx := get?_foldlM_add hu x
        rw [OrdMap.get?_single] at hx
        simp only [OrdMap.get?_map, Option.map_eq_some_iff, hl, List.map_cons, List.mem_cons]
        constructor
        · rintro ⟨e, l, hl, -⟩
          rcases hx.1 ⟨l, hl⟩ with hr | ⟨e, he⟩
          · exact .inr hr
          · exact .inl (by_contra fun hne => by simp [hne] at he)
        · intro hmem
          obtain ⟨l, hl⟩ := hx.2 (hmem.symm.imp_right fun he => ⟨[], by rw [if_pos he]⟩)
          exact ⟨_, l, hl, rfl⟩

/-- One more head is transformed against what has been merged, and the two meet. -/
theorem Folded.add {heads : List κ} {m : Document} (h : Folded doc base heads s m)
    {e : κ × List Operation} (he : Document.Leads base e.2 (doc e.1)) :
    ∃ t n, s.add e = .ok t ∧ Folded doc base (heads ++ [e.1]) t n := by
  obtain ⟨u, n, hu, hleft, hright, hval⟩ := h.merged.transform he
  have hadd : s.add e = .ok ⟨Operation.squash (s.merged ++ u.right),
      (s.edges.map (· ++ u.right)).insert e.1 u.left⟩ := by
    rw [State.add, hu]
    rfl
  refine ⟨_, n, hadd, (h.merged.append hright).squash, fun {x l} hl => ?_, fun k => ?_⟩
  · rw [OrdMap.get?_insert] at hl
    split at hl
    next hx =>
      cases hl
      exact hx ▸ hleft
    next =>
      rw [OrdMap.get?_map] at hl
      obtain ⟨l', hl', rfl⟩ := Option.map_eq_some_iff.1 hl
      exact (h.edges hl').append hright
  · rw [List.map_append, List.map_singleton, hval]
    exact (h.values k).snoc _

theorem Folded.foldlM {l : List (κ × List Operation)} {heads : List κ} {m : Document}
    (h : Folded doc base heads s m) (hl : ∀ e ∈ l, Document.Leads base e.2 (doc e.1)) :
    ∃ t n, l.foldlM State.add s = .ok t ∧ Folded doc base (heads ++ l.map Prod.fst) t n := by
  induction l generalizing s heads m with
  | nil => exact ⟨s, m, rfl, by simpa using h⟩
  | cons e l ih =>
      obtain ⟨u, n, hu, hf⟩ := h.add (hl e List.mem_cons_self)
      obtain ⟨t, o, ht, hf'⟩ := ih hf fun d hd => hl d (List.mem_cons_of_mem e hd)
      refine ⟨t, o, ?_, by simpa using hf'⟩
      rw [List.foldlM_cons, hu]
      exact ht

/-- Paths from one document to those of the heads are combined into edges that lead from the heads
to one document. -/
theorem combine_eq_ok (doc : κ → Document) (base : Document) {paths : Reach κ}
    (h : ∀ x l, paths.get? x = some l → Document.Leads base l (doc x)) :
    ∃ edges m, combine paths = .ok edges ∧
      (∀ x e, edges.get? x = some e → Document.Leads (doc x) e m) ∧
      ∀ k, Reconciled (base.get? k) (paths.keys.map fun x => (doc x).get? k) (m.get? k) := by
  have hpath : ∀ e ∈ paths.toList, Document.Leads base e.2 (doc e.1) := fun e he =>
    h e.1 e.2 (OrdMap.get?_eq_some_iff.2 he)
  unfold combine OrdMap.keys
  split
  next hl =>
    refine ⟨∅, base, rfl, by simp, fun k => ?_⟩
    rw [hl]
    exact .nil _
  next first diffs rest hl =>
    rw [hl] at hpath
    have hfirst : Document.Leads base diffs (doc first) := hpath _ List.mem_cons_self
    have hstart : Folded doc base [first] ⟨diffs, .single first []⟩ (doc first) := by
      refine ⟨hfirst, fun {x e} he => ?_, fun k => ?_⟩
      · rw [OrdMap.get?_single] at he
        split at he
        next hx =>
          cases he
          exact hx ▸ .nil _
        next => cases he
      · have hone := (Reconciled.nil (base.get? k)).snoc ((doc first).get? k)
        rwa [Operation.resolve_left] at hone
    obtain ⟨t, m, ht, hf⟩ := hstart.foldlM fun e he => hpath e (List.mem_cons_of_mem _ he)
    refine ⟨t.edges.map Operation.squash, m, ?_, fun x e he => ?_, fun k => ?_⟩
    · rw [ht]
      rfl
    · rw [OrdMap.get?_map] at he
      obtain ⟨l, hl, rfl⟩ := Option.map_eq_some_iff.1 he
      exact (hf.edges hl).squash
    · rw [hl, List.map_cons]
      exact hf.values k

end Fold

/-! ## Plans -/

structure Plan (κ : Type) [CommitId κ] where
  epoch : Nat
  edges : Edges κ
  level : Nat
deriving DecidableEq

def plan (heads : OrdSet κ) : Program κ (Plan κ) := do
  let commits ← loadCommits heads.toList
  let ancestor ← CommonAncestor.find heads commits
  let edges ← ofExcept (combine ancestor.paths)
  return ⟨newestEpoch commits, edges, commits.foldl (fun n c => max n c.level) 0 + 1⟩

theorem build_eq_plan {heads : OrdSet κ} (h : 2 ≤ heads.size) :
    build heads = (do
      let p ← plan heads
      let c ← createFrom p.epoch p.edges p.level
      return .created c) := by
  obtain ⟨_ | ⟨x, _ | ⟨y, l⟩⟩, hl⟩ := heads
  · simp [OrdSet.size] at h
  · simp [OrdSet.size] at h
  · simp only [build, plan, bind_assoc, pure_bind]

theorem merge_eq_plan {heads : OrdSet κ} (h : 2 ≤ heads.size) :
    merge heads = (do
      let p ← plan heads
      let c ← createFrom p.epoch p.edges p.level
      pushCommit c
      return c.id) := by
  simp only [merge, build_eq_plan h, bind_assoc, pure_bind]

theorem merge_single (x : κ) : merge (.single x) = (pure x : Program κ κ) := rfl

end Merge

namespace History

variable {κ : Type} [CommitId κ]

def IsGreatest (h : History κ) (heads : OrdSet κ) (f : Commit κ → Nat) (n : Nat) : Prop :=
  (∀ x ∈ heads, ∀ c, h.get? x = some c → f c ≤ n) ∧
    ∃ x ∈ heads, ∃ c, h.get? x = some c ∧ f c = n

theorem IsGreatest.lt {h : History κ} {heads : OrdSet κ} {f : Commit κ → Nat} {m n : Nat}
    (hm : h.IsGreatest heads f m) (hheads : ∀ x ∈ heads, ∀ c, h.get? x = some c → f c < n) :
    m < n := by
  obtain ⟨-, x, hx, c, hc, rfl⟩ := hm
  exact hheads x hx c hc

theorem foldl_max {α : Type} (f : α → Nat) (l : List α) (n : Nat) :
    n ≤ l.foldl (fun n c => max n (f c)) n ∧ (∀ c ∈ l, f c ≤ l.foldl (fun n c => max n (f c)) n) ∧
      (l.foldl (fun n c => max n (f c)) n = n ∨
        ∃ c ∈ l, f c = l.foldl (fun n c => max n (f c)) n) := by
  induction l generalizing n with
  | nil => simp
  | cons c l ih =>
      obtain ⟨hn, hl, hmax⟩ := ih (max n (f c))
      rw [List.foldl_cons]
      refine ⟨Nat.le_trans (Nat.le_max_left ..) hn, fun d hd => ?_, ?_⟩
      · rcases List.mem_cons.1 hd with rfl | hd
        · exact Nat.le_trans (Nat.le_max_right ..) hn
        · exact hl d hd
      · rcases hmax with heq | ⟨d, hd, heq⟩
        · rw [heq]
          rcases Nat.le_total (f c) n with hle | hle
          · exact .inl (Nat.max_eq_left hle)
          · exact .inr ⟨c, List.mem_cons_self, (Nat.max_eq_right hle).symm⟩
        · exact .inr ⟨d, List.mem_cons_of_mem c hd, heq⟩

theorem isGreatest_foldl {h : History κ} {heads : OrdSet κ} {commits : List (Commit κ)}
    (hcommits : heads.toList.map h.get? = commits.map some) (hne : ∃ x, x ∈ heads)
    (f : Commit κ → Nat) :
    h.IsGreatest heads f (commits.foldl (fun n c => max n (f c)) 0) := by
  have hmem := mem_of_map_get? hcommits
  obtain ⟨-, hl, hmax⟩ := foldl_max f commits 0
  refine ⟨fun x hx c hc => hl c ((hmem c).2 ⟨x, hx, hc⟩), ?_⟩
  rcases hmax with hzero | ⟨c, hc, heq⟩
  · obtain ⟨x, hx⟩ := hne
    have hin : h.get? x ∈ commits.map some := hcommits ▸ List.mem_map.2 ⟨x, hx, rfl⟩
    obtain ⟨c, hc, hget⟩ := List.mem_map.1 hin
    have hle := hl c hc
    exact ⟨x, hx, c, hget.symm, by omega⟩
  · obtain ⟨x, hx, hget⟩ := (hmem c).1 hc
    exact ⟨x, hx, c, hget, heq⟩

end History

namespace Merge

open History Program

variable {κ : Type} [CommitId κ]

/-- What the plan of a merge says: it has an edge from every head, comes from the paths that the
nearest common ancestor has to the heads, and lies one level above the highest head, in the newest
epoch. -/
structure Plans (h : History κ) (heads : OrdSet κ) (p : Plan κ) : Prop where
  keys : ∀ x, (∃ e, p.edges.get? x = some e) ↔ x ∈ heads
  paths : ∃ a : CommonAncestor κ, h.IsNearest heads a.commit ∧ h.PathsFrom heads a.commit a.paths ∧
    combine a.paths = .ok p.edges
  level : ∃ n, h.IsGreatest heads Commit.level n ∧ p.level = n + 1
  epoch : h.IsGreatest heads Commit.epoch p.epoch

/-- A merge can be planned if the paths from the nearest common ancestor can be combined. -/
theorem reads_plan {v : View κ} {heads : OrdSet κ} {P : Plan κ → Prop} {E : Fault → Prop}
    (hg : v.commits.Graded) (hne : ∃ x, x ∈ heads)
    (hheads : ∀ x ∈ heads, ∃ c, v.commits.get? x = some c)
    (hP : ∀ p, Plans v.commits heads p → P p)
    (hnone : (¬∃ a, ∀ x ∈ heads, v.commits.Ancestor a x) → E (CommonAncestor.noneFault heads))
    (herr : ∀ (a : CommonAncestor κ) e, v.commits.IsNearest heads a.commit →
      v.commits.PathsFrom heads a.commit a.paths → combine a.paths = .error e → E e)
    (hE : ∀ e, v.fails e → E e) : (plan heads).Reads v P E := by
  apply Reads.bind
  apply reads_loadCommits hheads _ hE
  intro cs hcs
  apply Reads.bind
  refine CommonAncestor.reads_find hg hne hcs (fun a ha hpaths => ?_) hnone hE
  apply Reads.bind
  refine reads_ofExcept (fun edges hok => ?_) fun e he => herr a e ha hpaths he
  refine reads_pure (hP _ ⟨fun x => ?_, ⟨a, ha, hpaths, hok⟩, ?_, ?_⟩)
  · rw [keys_combine hok]
    exact hpaths.exists_iff
  · exact ⟨_, isGreatest_foldl hcs hne _, rfl⟩
  · exact isGreatest_foldl hcs hne _

/-- In a sound history paths can always be combined, so only heads without a common ancestor
cannot be merged. -/
theorem reads_plan_sound {v : View κ} {heads : OrdSet κ} {doc : κ → Document} {P : Plan κ → Prop}
    {E : Fault → Prop} (hs : v.commits.Sound doc) (hne : ∃ x, x ∈ heads)
    (hheads : ∀ x ∈ heads, ∃ c, v.commits.get? x = some c)
    (hP : ∀ p, Plans v.commits heads p → P p)
    (hnone : (¬∃ a, ∀ x ∈ heads, v.commits.Ancestor a x) → E (CommonAncestor.noneFault heads))
    (hE : ∀ e, v.fails e → E e) : (plan heads).Reads v P E := by
  refine reads_plan hs.toGraded hne hheads hP hnone (fun a e ha hpaths he => ?_) hE
  obtain ⟨edges, m, hok, -⟩ := combine_eq_ok doc (doc a.commit)
    fun x l hl => by
      obtain ⟨-, edges, hr, rfl⟩ := hpaths.2 x l hl
      exact hs.leads_fold_squashed hr
  rw [hok] at he
  cases he

structure IsMerge (h : History κ) (doc : κ → Document) (heads : OrdSet κ) (m : Commit κ)
    (d : Document) : Prop where
  parents : ∀ x, x ∈ m.parentIds ↔ x ∈ heads
  level : ∃ n, h.IsGreatest heads Commit.level n ∧ m.level = n + 1
  epoch : h.IsGreatest heads Commit.epoch m.epoch
  edges : ∀ x e, m.parents.get? x = some e → Document.Leads (doc x) e d
  values : ∃ a, h.IsNearest heads a ∧ ∀ k,
    Reconciled ((doc a).get? k) (heads.toList.map fun x => (doc x).get? k) (d.get? k)

theorem IsMerge.level_le {h : History κ} {doc : κ → Document} {heads : OrdSet κ} {m : Commit κ}
    {d : Document} (hm : IsMerge h doc heads m d) {n : Nat}
    (hheads : ∀ x ∈ heads, ∀ c, h.get? x = some c → c.level < n) : m.level ≤ n := by
  obtain ⟨k, hk, hlevel⟩ := hm.level
  rw [hlevel]
  exact hk.lt hheads

theorem Plans.isMerge {h : History κ} {heads : OrdSet κ} {p : Plan κ} {doc : κ → Document}
    (hp : Plans h heads p) (hs : h.Sound doc) {m : Commit κ} (hm : m.parents = p.edges)
    (hlevel : m.level = p.level) (hepoch : m.epoch = p.epoch) :
    ∃ d, IsMerge h doc heads m d := by
  obtain ⟨a, ha, hpaths, hok⟩ := hp.paths
  obtain ⟨edges, d, hok', hedges, hvalues⟩ := combine_eq_ok doc (doc a.commit)
    fun x l hl => by
      obtain ⟨-, edges, hr, rfl⟩ := hpaths.2 x l hl
      exact hs.leads_fold_squashed hr
  cases hok.symm.trans hok'
  refine ⟨d, fun x => ?_, ?_, ?_, ?_, a.commit, ha, fun k => ?_⟩
  · rw [Commit.parentIds, OrdMap.mem_keys, hm, hp.keys]
  · rw [hlevel]
    exact hp.level
  · rw [hepoch]
    exact hp.epoch
  · rw [hm]
    exact hedges
  · refine (hvalues k).congr fun s => ?_
    simp only [List.mem_map, OrdMap.mem_keys]
    exact exists_congr fun x => and_congr_left fun _ => hpaths.exists_iff

theorem Plans.parents_level {h : History κ} {heads : OrdSet κ} {p : Plan κ} (hp : Plans h heads p)
    (hheads : ∀ x ∈ heads, ∃ c, h.get? x = some c) {c : Commit κ} (hedges : c.parents = p.edges)
    (hlevel : c.level = p.level) :
    ∀ x ∈ c.parentIds, ∃ q, h.get? x = some q ∧ q.level < c.level := by
  intro x hx
  rw [Commit.parentIds, OrdMap.mem_keys, hedges, hp.keys] at hx
  obtain ⟨q, hq⟩ := hheads x hx
  obtain ⟨n, ⟨hle, -⟩, hn⟩ := hp.level
  have hqn : q.level ≤ n := hle x hx q hq
  exact ⟨q, hq, by omega⟩

end Merge

end Confluence
