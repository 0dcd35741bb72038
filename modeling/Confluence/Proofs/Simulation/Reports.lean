import Confluence.Proofs.Simulation.Verdict

/-!
# What violations report

Each violation says what is wrong, and a verdict names it exactly if it is: `mem_check_iff` gives
the meaning of every kind of violation, and nothing else is ever reported. A divergence lists the
keys on which two documents differ, ascending and with both values, which fixes the list. The
verdict of all checks has passed exactly if it names nothing, and then the replicas have converged.
-/

namespace Confluence

/-! ## The differences of two documents -/

namespace Document

variable {d e : Document} {l m : List (String × Option String × Option String)}

structure Compares (d e : Document) (l : List (String × Option String × Option String)) : Prop where
  mem_iff : ∀ k v w, (k, v, w) ∈ l ↔ v ≠ w ∧ d.get? k = v ∧ e.get? k = w
  ascending : l.Pairwise fun a b => compare a.1 b.1 = .lt

theorem mem_differences_iff {k : String} {v w : Option String} :
    (k, v, w) ∈ d.differences e ↔ v ≠ w ∧ d.get? k = v ∧ e.get? k = w := by
  have hkey : d.get? k ≠ e.get? k →
      k ∈ (OrdSet.ofList (d.entries.keys ++ e.entries.keys)).toList := by
    intro hne
    rw [← OrdSet.mem_def, OrdSet.mem_ofList, List.mem_append, OrdMap.mem_keys, OrdMap.mem_keys]
    cases hd : d.get? k with
    | some v => exact .inl ⟨v, hd⟩
    | none =>
        cases he : e.get? k with
        | some w => exact .inr ⟨w, he⟩
        | none => exact absurd (hd.trans he.symm) hne
  unfold differences
  simp only [List.mem_map, List.mem_filter, bne_iff_ne]
  constructor
  · intro h
    rcases h with ⟨k', ⟨-, hne⟩, heq⟩
    cases heq
    exact ⟨hne, rfl, rfl⟩
  · intro h
    rcases h with ⟨hne, rfl, rfl⟩
    exact ⟨k, ⟨hkey hne, hne⟩, rfl⟩

theorem compares_differences (d e : Document) : d.Compares e (d.differences e) where
  mem_iff := fun _ _ _ => mem_differences_iff
  ascending := List.pairwise_map.2 ((OrdSet.ascending _).filter _)

theorem Compares.unique (hl : d.Compares e l) (hm : d.Compares e m) : l = m := by
  suffices (⟨l, hl.ascending⟩ : OrdMap String (Option String × Option String)) =
      ⟨m, hm.ascending⟩ from congrArg OrdMap.toList this
  apply OrdMap.ext
  intro k
  apply Option.ext
  intro v
  rw [OrdMap.get?_eq_some_iff, OrdMap.get?_eq_some_iff]
  exact (hl.mem_iff k v.1 v.2).trans (hm.mem_iff k v.1 v.2).symm

theorem compares_iff : d.Compares e l ↔ l = d.differences e := by
  constructor
  · intro h
    exact h.unique (compares_differences d e)
  · intro h
    rw [h]
    exact compares_differences d e

end Document

theorem Verdict.ofViolations_and {κ : Type} (l m : List (Violation κ)) :
    (ofViolations l).and (ofViolations m) = ofViolations (l ++ m) := by
  cases m with
  | nil => simp [Verdict.and, ofViolations]
  | cons v m => simp [Verdict.and, ofViolations]

/-! ## What a violation means -/

namespace Settled

variable {κ : Type} [CommitId κ] {s : Settled κ} {v : Violation κ}

def Violates (s : Settled κ) : Violation κ → Prop
  | .headCount heads => (¬∃ head, s.heads = .single head) ∧ heads = s.heads.toList
  | .cursorBehind replica cursor head =>
    s.heads.first? = some head ∧ cursor ≠ head ∧
      ∃ r ∈ s.replicas, r.id = replica ∧ r.cursor = cursor
  | .unflushedWork replica =>
    ∃ r ∈ s.replicas, r.id = replica ∧ ¬(r.uncommitted = 0 ∧ r.unacknowledged = none)
  | .divergence replica differing =>
    ∃ r ∈ s.replicas, r.id = replica ∧ r.document ≠ s.checkout ∧
      r.document.Compares s.checkout differing
  | .lostCommit replica commit =>
    ∃ head, s.heads.first? = some head ∧
      ¬(commit = head ∨ Relation.TransGen s.graph.IsParent commit head) ∧
      ∃ r ∈ s.replicas, r.id = replica ∧ commit ∈ r.authored
  | .levelOrder commit parent =>
    ∃ id c q, s.graph.held id = some c ∧ c.id = commit ∧ parent ∈ c.parentIds ∧
      s.graph.held parent = some q ∧ c.level ≤ q.level
  | .unexpected replica error => (replica, error) ∈ s.unexpected

theorem mem_checkSingleHead : v ∈ s.checkSingleHead ↔
    (¬∃ head, s.heads = .single head) ∧ v = .headCount s.heads.toList := by
  rw [← checkSingleHead_eq_nil_iff]
  unfold checkSingleHead
  split <;> simp

theorem mem_checkReplica {r : ReplicaView κ} : v ∈ s.checkReplica r ↔
    (∃ head, s.heads.first? = some head ∧ r.cursor ≠ head ∧
      v = .cursorBehind r.id r.cursor head) ∨
    (¬(r.uncommitted = 0 ∧ r.unacknowledged = none) ∧ v = .unflushedWork r.id) ∨
    (r.document ≠ s.checkout ∧ v = .divergence r.id (r.document.differences s.checkout)) := by
  have hunflushed : v ∈ (if 0 < r.uncommitted || r.unacknowledged.isSome then
      [(Violation.unflushedWork r.id : Violation κ)] else []) ↔
        ¬(r.uncommitted = 0 ∧ r.unacknowledged = none) ∧ v = .unflushedWork r.id := by
    cases r.unacknowledged <;> by_cases h : r.uncommitted = 0 <;> simp [h, Nat.pos_iff_ne_zero]
  have hdiffering : v ∈ (if (r.document.differences s.checkout).isEmpty then [] else
      [(Violation.divergence r.id (r.document.differences s.checkout) : Violation κ)]) ↔
        r.document ≠ s.checkout ∧
          v = .divergence r.id (r.document.differences s.checkout) := by
    rw [ne_eq, ← Document.differences_eq_nil_iff]
    cases r.document.differences s.checkout <;> simp
  unfold checkReplica
  rw [List.mem_append, List.mem_append, or_assoc, hunflushed, hdiffering]
  apply or_congr_left
  cases s.heads.first? with
  | none => simp
  | some head => by_cases h : r.cursor = head <;> simp [h]

theorem mem_checkDurability : v ∈ s.checkDurability ↔
    ∃ head, s.heads.first? = some head ∧ ∃ r ∈ s.replicas, ∃ c ∈ r.authored,
      ¬(c = head ∨ Relation.TransGen s.graph.IsParent c head) ∧ v = .lostCommit r.id c := by
  have hlost (c head : κ) : (decide (c ≠ head) && !s.graph.isAncestor c head) = true ↔
      ¬(c = head ∨ Relation.TransGen s.graph.IsParent c head) := by
    rw [Bool.and_eq_true, decide_eq_true_iff, Bool.not_eq_true', ← Bool.not_eq_true,
      Graph.isAncestor_iff]
    tauto
  unfold checkDurability
  cases s.heads.first? with
  | none => simp
  | some head =>
      simp only [List.mem_flatMap, List.mem_map, List.mem_filter, hlost, Option.some.injEq,
        exists_eq_left', and_assoc, eq_comm]

/-- A verdict reports all that is wrong, and nothing else. -/
theorem mem_check_iff : v ∈ s.check ↔ s.Violates v := by
  unfold check checkConvergence checkErrors
  simp only [List.mem_append, List.mem_flatMap, List.mem_map, mem_checkSingleHead,
    mem_checkReplica, mem_checkDurability, mem_checkLevelOrder]
  cases v with
  | headCount heads => simp [Violates]
  | cursorBehind replica cursor head =>
      simp only [Violates, reduceCtorEq, and_false, exists_false, or_false, false_or,
        Violation.cursorBehind.injEq]
      constructor
      · intro h
        rcases h with ⟨r, hr, _, hfirst, hne, rfl, rfl, rfl⟩
        exact ⟨hfirst, hne, r, hr, rfl, rfl⟩
      · intro h
        rcases h with ⟨hfirst, hne, r, hr, rfl, rfl⟩
        exact ⟨r, hr, head, hfirst, hne, rfl, rfl, rfl⟩
  | unflushedWork replica => simp [Violates, and_comm, eq_comm]
  | divergence replica differing =>
      simp [Violates, Document.compares_iff, and_left_comm, eq_comm]
  | lostCommit replica commit =>
      simp only [Violates, reduceCtorEq, and_false, exists_false, or_false, false_or,
        Violation.lostCommit.injEq]
      constructor
      · intro h
        rcases h with ⟨head, hfirst, r, hr, _, hc, hlost, rfl, rfl⟩
        exact ⟨head, hfirst, hlost, r, hr, rfl, hc⟩
      · intro h
        rcases h with ⟨head, hfirst, hlost, r, hr, rfl, hc⟩
        exact ⟨head, hfirst, r, hr, commit, hc, hlost, rfl, rfl⟩
  | levelOrder commit parent =>
      simp only [Violates, reduceCtorEq, and_false, exists_false, or_false, false_or,
        Violation.levelOrder.injEq]
      constructor
      · intro h
        rcases h with ⟨id, c, _, q, hc, hp, hq, hle, rfl, rfl⟩
        exact ⟨id, c, q, hc, rfl, hp, hq, hle⟩
      · intro h
        rcases h with ⟨id, c, q, hc, rfl, hp, hq, hle⟩
        exact ⟨id, c, parent, q, hc, hp, hq, hle, rfl, rfl⟩
  | unexpected replica error => simp [Violates]

/-! ## The verdict of all checks -/

theorem verdict_eq (s : Settled κ) : s.verdict = .ofViolations s.check := by
  unfold verdict check
  simp only [Verdict.ofViolations_and]

/-- The verdict has passed exactly if it names no violation, and exactly if the replicas have
converged. It names what is wrong and nothing else; a replica whose document is not that of the
checkout is reported with the keys on which the two differ. -/
theorem verdict_faithful (s : Settled κ) :
    (s.verdict.passed = true ↔ s.verdict.violations = []) ∧
      (s.verdict.passed = true ↔ ∃ head, s.Converged head) ∧
      (∀ v, v ∈ s.verdict.violations ↔ s.Violates v) ∧
      (∀ r ∈ s.replicas, r.document ≠ s.checkout → ∃ differing,
        .divergence r.id differing ∈ s.verdict.violations ∧
          r.document.Compares s.checkout differing) := by
  have hpassed : s.verdict.passed = true ↔ s.verdict.violations = [] := by
    rw [verdict_eq]
    exact List.isEmpty_iff
  have hviolations : s.verdict.violations = s.check := by
    rw [verdict_eq]
    rfl
  refine ⟨hpassed, ?_, ?_, ?_⟩
  · rw [hpassed, hviolations]
    exact check_eq_nil_iff
  · intro v
    rw [hviolations]
    exact mem_check_iff
  · intro r hr hne
    have hcompares := Document.compares_differences r.document s.checkout
    rw [hviolations]
    exact ⟨_, mem_check_iff.2 ⟨r, hr, rfl, hne, hcompares⟩, hcompares⟩

end Settled

end Confluence
