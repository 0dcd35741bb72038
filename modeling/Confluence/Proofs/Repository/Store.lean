import Confluence.Proofs.Repository.Ensures
import Confluence.Repository.Store
import Mathlib.Data.List.Nodup

/-!
# What the store does

A batch that is stored adds its commits to the history and leaves those that are stored already as
they are; for every parent whose level is known it is below the child's. Neither the heads nor the
snapshots change with it. A change of the heads is made only if all added heads are stored, and
leaves the history alone.
-/

namespace Confluence.Store

variable {κ : Type} [CommitId κ] {s t : Store κ}

/-- A request is carried out, or it fails and leaves the store as it was. -/
def Atomic (s : Store κ) (o : Except Fault Unit × Store κ) : Prop :=
  ∀ e t, o = (.error e, t) → t = s

/-- What holds before an atomic request holds after it if it holds after a success. -/
theorem Atomic.snd {o : Except Fault Unit × Store κ} {P : Store κ → Prop} (h : Atomic s o)
    (hs : P s)
    (hok : ∀ t, o = (.ok (), t) → P t) : P o.2 := by
  obtain ⟨e | ⟨⟩, t⟩ := o
  · rw [h e t rfl]
    exact hs
  · exact hok t rfl

/-! ## Pushing -/

/-- After a push a commit is the one that was stored or else the first one of the batch. -/
theorem get?_foldl_store (l : List (Commit κ)) (m : History κ) (id : κ) :
    (l.foldl (fun m c => m.insertIfNew c.id c) m).get? id =
      (m.get? id).or (l.find? fun c => c.id = id) := by
  induction l generalizing m with
  | nil => simp
  | cons c l ih =>
      rw [List.foldl_cons, ih, OrdMap.get?_insertIfNew, Option.or_assoc]
      by_cases hid : id = c.id
      · simp [hid]
      · have hid' : ¬c.id = id := fun h => hid h.symm
        simp [hid, hid']

theorem commitFault?_eq_none {batch : OrdMap κ Nat} {c : Commit κ} :
    s.commitFault? batch c = none ↔
      (∀ d, s.commits.get? c.id = some d → d.sameContent c = true) ∧
        ∀ p ∈ c.parentIds, ∀ n, s.levelOf? batch p = some n → n < c.level := by
  have hany : ((s.commits.get? c.id).any fun d => !d.sameContent c) = false ↔
      ∀ d, s.commits.get? c.id = some d → d.sameContent c = true := by
    cases s.commits.get? c.id with
    | none => simp
    | some d => simp
  have hparent (p : κ) : s.parentFault? batch c p = none ↔
      ∀ n, s.levelOf? batch p = some n → n < c.level := by
    unfold parentFault?
    cases s.levelOf? batch p with
    | none => simp
    | some n => simp
  rw [← hany]
  unfold commitFault?
  split
  next hc => simp [hc]
  next hc => simp [hc, List.findSome?_eq_none_iff, hparent]

structure Pushed (s : Store κ) (commits : List (Commit κ)) (t : Store κ) : Prop where
  same : ∀ c ∈ commits, ∀ d, s.commits.get? c.id = some d → d.sameContent c = true
  above : ∀ c ∈ commits, ∀ p ∈ c.parentIds, ∀ n,
    s.levelOf? (batchLevels commits) p = some n → n < c.level
  eq : t = { s with
    commits := commits.foldl (fun m c => m.insertIfNew c.id c) s.commits
    pushed := s.pushed + commits.length }

theorem atomic_push (s : Store κ) (commits : List (Commit κ)) : Atomic s (s.push commits) := by
  intro e t h
  unfold push at h
  split at h
  next =>
    cases h
    rfl
  next => cases h

theorem push_eq_ok_iff {commits : List (Commit κ)} :
    s.push commits = (.ok (), t) ↔ Pushed s commits t := by
  unfold push
  cases h : commits.findSome? (s.commitFault? (batchLevels commits)) with
  | some e =>
      simp only [Prod.mk.injEq, reduceCtorEq, false_and, false_iff]
      intro hp
      obtain ⟨c, hc, he⟩ := List.exists_of_findSome?_eq_some h
      rw [commitFault?_eq_none.2 ⟨hp.same c hc, hp.above c hc⟩] at he
      cases he
  | none =>
      rw [List.findSome?_eq_none_iff] at h
      constructor
      · rintro ⟨⟩
        exact ⟨fun c hc => (commitFault?_eq_none.1 (h c hc)).1,
          fun c hc => (commitFault?_eq_none.1 (h c hc)).2, rfl⟩
      · rintro ⟨-, -, rfl⟩
        rfl

namespace Pushed

variable {commits : List (Commit κ)}

theorem get? (h : Pushed s commits t) (id : κ) :
    t.commits.get? id = (s.commits.get? id).or (commits.find? fun c => c.id = id) := by
  rw [h.eq]
  exact get?_foldl_store ..

theorem get?_singleton {c : Commit κ} (h : Pushed s [c] t) (id : κ) :
    t.commits.get? id = (s.commits.get? id).or (if id = c.id then some c else none) := by
  rw [h.get?]
  by_cases hid : id = c.id
  · simp [hid]
  · have hid' : ¬c.id = id := fun he => hid he.symm
    simp [hid, hid']

theorem history_extends (h : Pushed s commits t) : History.Extends s.commits t.commits := by
  intro id c hc
  rw [h.get?, hc, Option.some_or]

theorem commits_singleton {c : Commit κ} (h : Pushed s [c] t) :
    t.commits = s.commits.insertIfNew c.id c := by
  rw [h.eq]
  rfl

theorem commits_eq_insert {c : Commit κ} (h : Pushed s [c] t) (hnew : s.commits.get? c.id = none) :
    t.commits = s.commits.insert c.id c := by
  refine OrdMap.ext fun x => ?_
  rw [h.get?_singleton, OrdMap.get?_insert]
  by_cases hx : x = c.id
  · simp [hx, hnew]
  · simp [hx]

theorem commits_eq_self {c d : Commit κ} (h : Pushed s [c] t)
    (hold : s.commits.get? c.id = some d) :
    t.commits = s.commits := by
  refine OrdMap.ext fun x => ?_
  rw [h.get?_singleton]
  by_cases hx : x = c.id
  · rw [hx, hold, Option.some_or]
  · rw [if_neg hx, Option.or_none]

theorem heads (h : Pushed s commits t) : t.heads = s.heads := by rw [h.eq]

theorem snapshots (h : Pushed s commits t) : t.snapshots = s.snapshots := by rw [h.eq]

theorem serial (h : Pushed s commits t) : t.serial = s.serial := by rw [h.eq]

/-- Under the id of an entry the store holds its content or a new commit of the batch. -/
theorem exists_entry (h : Pushed s commits t) {c : Commit κ} (hc : c ∈ commits) :
    ∃ d, t.commits.get? c.id = some d ∧ (d.sameContent c = true ∨ d ∈ commits ∧ d.id = c.id) := by
  rw [h.get?]
  cases hd : s.commits.get? c.id with
  | some d => exact ⟨d, rfl, .inl (h.same c hc d hd)⟩
  | none =>
      rw [Option.none_or]
      have hf : (commits.find? fun d => d.id = c.id).isSome :=
        List.find?_isSome.2 ⟨c, hc, by simp⟩
      obtain ⟨d, hd⟩ := Option.isSome_iff_exists.1 hf
      exact ⟨d, hd, .inr ⟨List.mem_of_find?_eq_some hd, by simpa using List.find?_some hd⟩⟩

/-- Every commit of the batch is stored, up to its timestamp. -/
theorem exists_sameContent (h : Pushed s commits t) {c : Commit κ} (hc : c ∈ commits)
    (hids : (commits.map Commit.id).Nodup) :
    ∃ d, t.commits.get? c.id = some d ∧ d.sameContent c = true := by
  obtain ⟨d, hd, hsame | ⟨hmem, hid⟩⟩ := h.exists_entry hc
  · exact ⟨d, hd, hsame⟩
  · obtain rfl : d = c := List.inj_on_of_nodup_map hids hmem hc hid
    exact ⟨d, hd, by simp [Commit.sameContent]⟩

end Pushed

/-- A commit whose parents are stored below it is stored, unless its id has other content. -/
theorem push_singleton {c : Commit κ}
    (hsame : ∀ d, s.commits.get? c.id = some d → d.sameContent c = true)
    (hp : ∀ p ∈ c.parentIds, ∃ q, s.commits.get? p = some q ∧ q.level < c.level) :
    ∃ t, s.push [c] = (.ok (), t) ∧ Pushed s [c] t := by
  have hpushed : ∃ t, Pushed s [c] t := by
    refine ⟨_, fun d hd => ?_, fun d hd p hmem n hn => ?_, rfl⟩
    · cases List.mem_singleton.1 hd
      exact hsame
    · cases List.mem_singleton.1 hd
      obtain ⟨q, hq, hlt⟩ := hp p hmem
      simp only [levelOf?, hq, Option.map_some, Option.some_or, Option.some.injEq] at hn
      omega
  obtain ⟨t, ht⟩ := hpushed
  exact ⟨t, push_eq_ok_iff.2 ht, ht⟩

/-! ## Heads -/

@[simp] theorem commits_announce (s : Store κ) : s.announce.commits = s.commits := by
  unfold announce
  split <;> rfl

@[simp] theorem heads_announce (s : Store κ) : s.announce.heads = s.heads := by
  unfold announce
  split <;> rfl

@[simp] theorem snapshots_announce (s : Store κ) : s.announce.snapshots = s.snapshots := by
  unfold announce
  split <;> rfl

@[simp] theorem serial_announce (s : Store κ) : s.announce.serial = s.serial := by
  unfold announce
  split <;> rfl

structure HeadsMoved (s : Store κ) (added removed : OrdSet κ) (t : Store κ) : Prop where
  stored : ∀ x ∈ added, ∃ c, s.commits.get? x = some c
  heads : ∀ x, x ∈ t.heads ↔ x ∈ added ∨ x ∈ s.heads ∧ x ∉ removed
  commits : t.commits = s.commits
  snapshots : t.snapshots = s.snapshots
  serial : t.serial = s.serial

theorem atomic_updateHeads (s : Store κ) (added removed : OrdSet κ) :
    Atomic s (s.updateHeads added removed) := by
  intro e t h
  unfold updateHeads at h
  split at h
  next =>
    cases h
    rfl
  next => cases h

theorem updateHeads_eq_ok {added removed : OrdSet κ}
    (h : s.updateHeads added removed = (.ok (), t)) : HeadsMoved s added removed t := by
  unfold updateHeads at h
  split at h
  next => cases h
  next hf =>
    cases h
    refine ⟨fun x hx => ?_, fun x => ?_, commits_announce _, snapshots_announce _,
      serial_announce _⟩
    · have hx' := List.find?_eq_none.1 hf x hx
      exact OrdMap.contains_iff.1 (by simpa using hx')
    · rw [heads_announce, OrdSet.mem_union, OrdSet.mem_diff]
      exact or_comm

theorem updateHeads_of_stored {added removed : OrdSet κ}
    (h : ∀ x ∈ added, ∃ c, s.commits.get? x = some c) :
    ∃ t, s.updateHeads added removed = (.ok (), t) ∧ HeadsMoved s added removed t := by
  have hf : added.toList.find? (fun id => !s.commits.contains id) = none := by
    refine List.find?_eq_none.2 fun x hx => ?_
    simp [OrdMap.contains_iff.2 (h x hx)]
  have hok : ∃ t, s.updateHeads added removed = (.ok (), t) := by
    unfold updateHeads
    rw [hf]
    exact ⟨_, rfl⟩
  obtain ⟨t, ht⟩ := hok
  exact ⟨t, ht, updateHeads_eq_ok ht⟩

theorem atomic_saveSnapshot (s : Store κ) (id : κ) (diffs : List Operation) :
    Atomic s (s.saveSnapshot id diffs) := by
  intro e t h
  unfold saveSnapshot at h
  split at h
  next => cases h
  next =>
    cases h
    rfl

theorem activeHeads_subset {x : κ} (h : x ∈ s.activeHeads) : x ∈ s.heads := by
  unfold activeHeads at h
  exact (OrdSet.mem_filter.1 h).1

theorem activeHeads_single {x : κ} (h : s.heads = .single x) : s.activeHeads = .single x := by
  unfold activeHeads
  rw [h]
  simp [OrdSet.single, OrdSet.filter]

end Confluence.Store
