import Confluence.Proofs.Repository.Store

/-!
# What a push answers

A push judges the entries of a batch one by one, against the stored commits and the levels of the
batch, and the first one that is not admitted decides the fault. Two entries are never compared with
each other. So an accepted batch is stored completely exactly if entries with one id have the same
content; otherwise the first of them is stored and the others are lost without a fault.
-/

namespace Confluence

variable {κ : Type} [CommitId κ]

theorem Commit.sameContent_symm {c d : Commit κ} (h : c.sameContent d = true) :
    d.sameContent c = true := sameContent_iff.2 (sameContent_iff.1 h).symm

theorem Commit.sameContent_trans {c d e : Commit κ} (hcd : c.sameContent d = true)
    (hde : d.sameContent e = true) : c.sameContent e = true :=
  sameContent_iff.2 ((sameContent_iff.1 hcd).trans (sameContent_iff.1 hde))

namespace Store

variable {s t : Store κ} {batch : List (Commit κ)} {c : Commit κ} {id : κ}

def Clashes (s : Store κ) (c : Commit κ) : Prop :=
  ∃ d, s.commits.get? c.id = some d ∧ d.sameContent c = false

/-- Nothing stored clashes with an entry of a batch, and it lies above every parent whose level is
known. -/
structure Admits (s : Store κ) (batch : List (Commit κ)) (c : Commit κ) : Prop where
  free : ¬s.Clashes c
  above : ∀ p ∈ c.parentIds, ∀ n, s.levelOf? (batchLevels batch) p = some n → n < c.level

def Agree (batch : List (Commit κ)) : Prop :=
  ∀ c ∈ batch, ∀ d ∈ batch, c.id = d.id → c.sameContent d = true

/-! ## Single entries -/

theorem not_clashes_iff :
    ¬s.Clashes c ↔ ∀ d, s.commits.get? c.id = some d → d.sameContent c = true := by
  simp [Clashes]

theorem admits_iff : s.Admits batch c ↔ s.commitFault? (batchLevels batch) c = none := by
  rw [commitFault?_eq_none, ← not_clashes_iff]
  exact ⟨fun h => ⟨h.free, h.above⟩, fun h => ⟨h.1, h.2⟩⟩

theorem parentFault?_eq_some {levels : OrdMap κ Nat} {p : κ} {e : Fault}
    (h : s.parentFault? levels c p = some e) : ∃ d, e = .invalidArgument d := by
  obtain ⟨n, -, hn⟩ := Option.bind_eq_some_iff.1 h
  split at hn
  next =>
    cases hn
    exact ⟨_, rfl⟩
  next => cases hn

theorem commitFault?_eq_conflict {levels : OrdMap κ Nat} {text : String} :
    s.commitFault? levels c = some (.commitConflict text) ↔
      s.Clashes c ∧ CommitId.text c.id = text := by
  unfold commitFault?
  split
  next hc =>
    have hclash : s.Clashes c := by
      obtain ⟨d, hd, hne⟩ := (Option.any_eq_true ..).1 hc
      exact ⟨d, hd, by simpa using hne⟩
    simp [hclash]
  next hc =>
    have hfree : ¬s.Clashes c := by
      rintro ⟨d, hd, hne⟩
      exact hc ((Option.any_eq_true ..).2 ⟨d, hd, by simpa using hne⟩)
    refine ⟨fun h => ?_, fun h => absurd h.1 hfree⟩
    obtain ⟨p, -, hp⟩ := List.exists_of_findSome?_eq_some h
    obtain ⟨d, hd⟩ := parentFault?_eq_some hp
    cases hd

/-! ## Batches -/

theorem push_isOk_iff : (∃ t, s.push batch = (.ok (), t)) ↔ ∀ c ∈ batch, s.Admits batch c := by
  have hnone : (∃ t, s.push batch = (.ok (), t)) ↔
      batch.findSome? (s.commitFault? (batchLevels batch)) = none := by
    unfold push
    split
    next h => simp [h]
    next h => simp [h]
  rw [hnone, List.findSome?_eq_none_iff]
  exact forall₂_congr fun c _ => admits_iff.symm

theorem push_eq_error {e : Fault} (h : s.push batch = (.error e, t)) :
    (∃ text, e = .commitConflict text) ∨ ∃ d, e = .invalidArgument d := by
  unfold push at h
  split at h
  next e' he =>
    cases h
    obtain ⟨c, -, hc⟩ := List.exists_of_findSome?_eq_some he
    unfold commitFault? at hc
    split at hc
    next =>
      cases hc
      exact .inl ⟨_, rfl⟩
    next =>
      obtain ⟨p, -, hp⟩ := List.exists_of_findSome?_eq_some hc
      exact .inr (parentFault?_eq_some hp)
  next => cases h

/-- A push reports a conflict exactly if it comes to an entry that clashes with a stored commit. -/
theorem push_eq_conflict_iff {text : String} :
    (s.push batch).1 = .error (.commitConflict text) ↔
      ∃ before c after, batch = before ++ c :: after ∧ (∀ b ∈ before, s.Admits batch b) ∧
        s.Clashes c ∧ CommitId.text c.id = text := by
  have hsome : (s.push batch).1 = .error (.commitConflict text) ↔
      batch.findSome? (s.commitFault? (batchLevels batch)) = some (.commitConflict text) := by
    unfold push
    split
    next h => simp [h]
    next h => simp [h]
  rw [hsome, List.findSome?_eq_some_iff]
  simp only [commitFault?_eq_conflict, ← admits_iff]
  refine exists₃_congr fun before c after => and_congr_right fun _ => ?_
  exact and_comm

/-- An accepted batch is stored completely exactly if its entries agree. -/
theorem Pushed.complete_iff (h : Pushed s batch t) :
    (∀ c ∈ batch, ∃ d, t.commits.get? c.id = some d ∧ d.sameContent c = true) ↔ Agree batch := by
  constructor
  · intro hstored c hc d hd hid
    obtain ⟨x, hx, hxc⟩ := hstored c hc
    obtain ⟨y, hy, hyd⟩ := hstored d hd
    obtain rfl : x = y := Option.some.inj (hx.symm.trans (hid ▸ hy))
    exact Commit.sameContent_trans (Commit.sameContent_symm hxc) hyd
  · intro hagree c hc
    obtain ⟨d, hd, hsame | ⟨hmem, hid⟩⟩ := h.exists_entry hc
    · exact ⟨d, hd, hsame⟩
    · exact ⟨d, hd, hagree d hmem c hc hid⟩

/-- A push is accepted if every entry is admitted. Then stored commits stay as they are, of several
new entries with one id the first is stored, and nothing else is; so the batch is stored completely
exactly if its entries agree. A push that is refused changes nothing, and a conflict is reported
exactly for an entry that clashes with a stored commit when all entries before it are admitted. -/
theorem push_outcome (s : Store κ) (batch : List (Commit κ)) :
    ((∃ t, s.push batch = (.ok (), t)) ↔ ∀ c ∈ batch, s.Admits batch c) ∧
      (∀ t, s.push batch = (.ok (), t) →
        (∀ id, t.commits.get? id = (s.commits.get? id).or (batch.find? fun c => c.id = id)) ∧
        ((∀ c ∈ batch, ∃ d, t.commits.get? c.id = some d ∧ d.sameContent c = true) ↔
          Agree batch)) ∧
      (∀ e t, s.push batch = (.error e, t) → t = s) ∧
      ∀ text, (s.push batch).1 = .error (.commitConflict text) ↔
        ∃ before c after, batch = before ++ c :: after ∧ (∀ b ∈ before, s.Admits batch b) ∧
          s.Clashes c ∧ CommitId.text c.id = text := by
  refine ⟨push_isOk_iff, fun t ht => ?_, atomic_push s batch, fun text => push_eq_conflict_iff⟩
  have hpushed := push_eq_ok_iff.1 ht
  exact ⟨hpushed.get?, hpushed.complete_iff⟩

def planted : Store UInt64 := ((Program.initRoot 0).run (repository (.sequential 1)) empty).2

def twins : List (Commit UInt64) :=
  [⟨2, .single 1 [.single "k" ⟨none, some "a"⟩], 2, 0, none⟩,
    ⟨2, .single 1 [.single "k" ⟨none, some "b"⟩], 2, 0, none⟩]

/-- Two edits under one id are accepted, and what is stored under it is not the second one. -/
theorem push_twins : ∃ t, planted.push twins = (.ok (), t) ∧ ¬Agree twins ∧
    ∃ c ∈ twins, ∀ d, t.commits.get? c.id = some d → d.sameContent c = false := by
  refine ⟨_, rfl, fun h => ?_, _, List.mem_cons_of_mem _ List.mem_cons_self, fun d hd => ?_⟩
  · exact absurd (h _ List.mem_cons_self _ (List.mem_cons_of_mem _ List.mem_cons_self) rfl)
      (by decide)
  · cases hd
    decide

end Store

end Confluence
