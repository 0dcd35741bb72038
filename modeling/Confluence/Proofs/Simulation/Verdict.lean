import Confluence.Proofs.History.Order
import Confluence.Simulation.Verdict

/-!
# What verdicts say

A verdict is empty exactly if the replicas have converged: they stand on the only head with the
document of the checkout and without work of their own, the loaded history reaches from the head to
all commits that they built, levels rise along its edges, and nothing failed that should not.
-/

namespace Confluence

variable {κ : Type} [CommitId κ]

theorem Document.differences_eq_nil_iff {d e : Document} : d.differences e = [] ↔ d = e := by
  unfold differences
  rw [List.map_eq_nil_iff, List.filter_eq_nil_iff]
  constructor
  · intro h
    apply Document.ext
    intro k
    by_cases hk : k ∈ d.entries.keys ++ e.entries.keys
    · simpa using h k (OrdSet.mem_ofList.2 hk)
    · rw [List.mem_append, not_or, OrdMap.mem_keys, OrdMap.mem_keys] at hk
      have hd : d.get? k = none := Option.eq_none_iff_forall_ne_some.2 fun v hv => hk.1 ⟨v, hv⟩
      have he : e.get? k = none := Option.eq_none_iff_forall_ne_some.2 fun v hv => hk.2 ⟨v, hv⟩
      rw [hd, he]
  · intro h k _
    simp [h]

namespace Settled

variable {s : Settled κ} {head : κ}

structure Follows (s : Settled κ) (head : κ) (r : ReplicaView κ) : Prop where
  cursor : r.cursor = head
  document : r.document = s.checkout
  uncommitted : r.uncommitted = 0
  unacknowledged : r.unacknowledged = none
  authored : ∀ c ∈ r.authored, c = head ∨ Relation.TransGen s.graph.IsParent c head

structure Converged (s : Settled κ) (head : κ) : Prop where
  heads : s.heads = .single head
  replicas : ∀ r ∈ s.replicas, s.Follows head r
  levels : s.graph.Rises
  expected : s.unexpected = []

theorem checkSingleHead_eq_nil_iff : s.checkSingleHead = [] ↔ ∃ head, s.heads = .single head := by
  unfold checkSingleHead
  constructor
  · intro h
    split at h
    next hsize =>
      cases hl : s.heads.toList with
      | nil => simp [OrdSet.size, hl] at hsize
      | cons head l =>
          refine ⟨head, OrdSet.single_of_size_le_one (Nat.le_of_eq hsize) ?_⟩
          rw [OrdSet.mem_def, hl]
          exact List.mem_cons_self
    next => cases h
  · intro h
    rcases h with ⟨head, hhead⟩
    simp [hhead, OrdSet.single, OrdSet.size]

theorem checkReplica_eq_nil_iff (hfirst : s.heads.first? = some head) {r : ReplicaView κ} :
    s.checkReplica r = [] ↔ r.cursor = head ∧ (r.uncommitted = 0 ∧ r.unacknowledged = none) ∧
      r.document = s.checkout := by
  have hbehind : (if r.cursor = head then [] else
      [Violation.cursorBehind r.id r.cursor head]) = [] ↔ r.cursor = head := by
    split <;> simp [*]
  have hunflushed : (if 0 < r.uncommitted || r.unacknowledged.isSome then
      [(Violation.unflushedWork r.id : Violation κ)] else []) = [] ↔
        r.uncommitted = 0 ∧ r.unacknowledged = none := by
    cases r.unacknowledged <;> simp
  have hdiffering : (if (r.document.differences s.checkout).isEmpty then [] else
      [(Violation.divergence r.id (r.document.differences s.checkout) : Violation κ)]) = [] ↔
        r.document = s.checkout := by
    rw [← Document.differences_eq_nil_iff]
    cases r.document.differences s.checkout <;> simp
  simp only [checkReplica, hfirst]
  rw [List.append_eq_nil_iff, List.append_eq_nil_iff, hbehind, hunflushed, hdiffering, and_assoc]

theorem checkDurability_eq_nil_iff (hfirst : s.heads.first? = some head) :
    s.checkDurability = [] ↔ ∀ r ∈ s.replicas, ∀ c ∈ r.authored,
      c = head ∨ Relation.TransGen s.graph.IsParent c head := by
  have hauthored (r : ReplicaView κ) :
      (r.authored.filter fun c => c ≠ head && !s.graph.isAncestor c head).map
        (Violation.lostCommit r.id) = [] ↔
      ∀ c ∈ r.authored, c = head ∨ Relation.TransGen s.graph.IsParent c head := by
    rw [List.map_eq_nil_iff, List.filter_eq_nil_iff]
    apply forall₂_congr
    intro c _
    by_cases hc : c = head
    · simp [hc]
    · have hancestor := Graph.isAncestor_iff (g := s.graph) (a := c) (d := head)
      cases ha : s.graph.isAncestor c head with
      | true =>
          rw [ha] at hancestor
          simp [hc, (hancestor.1 rfl).2]
      | false =>
          have hnot : ¬Relation.TransGen s.graph.IsParent c head := by
            intro hreached
            rw [hancestor.2 ⟨hc, hreached⟩] at ha
            cases ha
          simp [hc, hnot]
  unfold checkDurability
  rw [hfirst]
  simp only [List.flatMap_eq_nil_iff, hauthored]

theorem mem_checkLevelOrder {g : Graph κ} {v : Violation κ} : v ∈ checkLevelOrder g ↔
    ∃ id c p q, g.held id = some c ∧ p ∈ c.parentIds ∧ g.held p = some q ∧ c.level ≤ q.level ∧
      v = .levelOrder c.id p := by
  have hparent (c : Commit κ) (p : κ) :
      ((g.nodes.get? p).any fun n => c.level ≤ n.commit.level) = true ↔
        ∃ q, g.held p = some q ∧ c.level ≤ q.level := by
    unfold Graph.held
    cases g.nodes.get? p with
    | none => simp
    | some node => simp
  unfold checkLevelOrder
  simp only [List.mem_flatMap, List.mem_map, List.mem_filter, Graph.mem_topologicalOrder, hparent]
  constructor
  · intro h
    rcases h with ⟨c, ⟨id, hc⟩, p, ⟨hp, q, hq, hle⟩, rfl⟩
    exact ⟨id, c, p, q, hc, hp, hq, hle, rfl⟩
  · intro h
    rcases h with ⟨id, c, p, q, hc, hp, hq, hle, rfl⟩
    exact ⟨c, ⟨id, hc⟩, p, ⟨hp, q, hq, hle⟩, rfl⟩

theorem checkLevelOrder_eq_nil_iff {g : Graph κ} :
    (checkLevelOrder g : List (Violation κ)) = [] ↔ g.Rises := by
  rw [List.eq_nil_iff_forall_not_mem]
  constructor
  · intro h id c p q hc hp hq
    by_contra hle
    exact h _ (mem_checkLevelOrder.2 ⟨id, c, p, q, hc, hp, hq, Nat.not_lt.1 hle, rfl⟩)
  · intro h v hv
    rcases mem_checkLevelOrder.1 hv with ⟨id, c, p, q, hc, hp, hq, hle, -⟩
    exact Nat.not_lt.2 hle (h id c p q hc hp hq)

/-- The verdict is empty exactly if the replicas have converged. -/
theorem check_eq_nil_iff : s.check = [] ↔ ∃ head, s.Converged head := by
  have herrors : s.checkErrors = [] ↔ s.unexpected = [] := List.map_eq_nil_iff
  unfold check
  rw [List.append_eq_nil_iff, List.append_eq_nil_iff, List.append_eq_nil_iff,
    List.append_eq_nil_iff, checkSingleHead_eq_nil_iff, checkLevelOrder_eq_nil_iff, herrors,
    checkConvergence, List.flatMap_eq_nil_iff]
  constructor
  · intro h
    rcases h with ⟨⟨⟨⟨⟨head, hhead⟩, hreplicas⟩, hdurable⟩, hlevels⟩, hexpected⟩
    have hfirst : s.heads.first? = some head := by
      rw [hhead]
      rfl
    refine ⟨head, hhead, ?_, hlevels, hexpected⟩
    intro r hr
    rcases (checkReplica_eq_nil_iff hfirst).1 (hreplicas r hr) with
      ⟨hcursor, ⟨huncommitted, hunacknowledged⟩, hdocument⟩
    exact ⟨hcursor, hdocument, huncommitted, hunacknowledged,
      (checkDurability_eq_nil_iff hfirst).1 hdurable r hr⟩
  · intro h
    rcases h with ⟨head, h⟩
    have hfirst : s.heads.first? = some head := by
      rw [h.heads]
      rfl
    refine ⟨⟨⟨⟨⟨head, h.heads⟩, ?_⟩, ?_⟩, h.levels⟩, h.expected⟩
    · intro r hr
      have hr := h.replicas r hr
      exact (checkReplica_eq_nil_iff hfirst).2
        ⟨hr.cursor, ⟨hr.uncommitted, hr.unacknowledged⟩, hr.document⟩
    · exact (checkDurability_eq_nil_iff hfirst).2 fun r hr => (h.replicas r hr).authored

end Settled

end Confluence
