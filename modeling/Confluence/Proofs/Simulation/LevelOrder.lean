import Confluence.Proofs.Simulation.Verdict

/-!
# The check of level order

The check reports every edge between loaded commits along which levels do not rise, and each once.
If it reports none, the order by levels puts every commit behind its loaded parents, and no chain of
parents comes back to its start.
-/

namespace Confluence.Settled

variable {κ : Type} [CommitId κ] {g : Graph κ}

theorem mem_checkLevelOrder_iff (hg : g.Linked) {v : Violation κ} : v ∈ checkLevelOrder g ↔
    ∃ c q, g.held c.id = some c ∧ q.id ∈ c.parentIds ∧ g.held q.id = some q ∧ c.level ≤ q.level ∧
      v = .levelOrder c.id q.id := by
  rw [mem_checkLevelOrder]
  constructor
  · intro h
    rcases h with ⟨id, c, p, q, hc, hp, hq, hle, rfl⟩
    obtain rfl : c.id = id := hg.filed id c hc
    obtain rfl : q.id = p := hg.filed p q hq
    exact ⟨c, q, hc, hp, hq, hle, rfl⟩
  · intro h
    rcases h with ⟨c, q, hc, hp, hq, hle, rfl⟩
    exact ⟨c.id, c, q.id, q, hc, hp, hq, hle, rfl⟩

theorem nodup_checkLevelOrder (hg : g.Linked) : (checkLevelOrder g : List (Violation κ)).Nodup := by
  unfold checkLevelOrder
  rw [List.nodup_flatMap]
  constructor
  · intro c _
    have hparents : c.parentIds.Nodup := OrdMap.nodup_keys c.parents
    apply (hparents.filter _).map
    intro p p' heq
    cases heq
    rfl
  · have hids : g.topologicalOrder.Pairwise fun a b => a.id ≠ b.id :=
      List.pairwise_map.1 hg.nodup_topologicalOrder
    apply hids.imp
    intro a b hne v ha hb
    rcases List.mem_map.1 ha with ⟨p, -, rfl⟩
    rcases List.mem_map.1 hb with ⟨p', -, heq⟩
    injection heq with hid
    exact hne hid.symm

example : (checkLevelOrder (.ofList [⟨4, .ofList [(2, []), (3, [])], 3, 0, none⟩,
    ⟨3, .single 1 [], 3, 0, none⟩]) : List (Violation UInt64)) = [.levelOrder 4 3] := by
  cbv

/-- Where no pair is reported, loaded parents come first. -/
theorem pair_sublist_of_checkLevelOrder (hg : g.Linked)
    (h : (checkLevelOrder g : List (Violation κ)) = []) {c q : Commit κ}
    (hc : g.held c.id = some c) (hp : q.id ∈ c.parentIds) (hq : g.held q.id = some q) :
    [q, c].Sublist g.topologicalOrder := by
  apply Graph.pair_sublist_topologicalOrder
  · exact hg.mem_topologicalOrder_iff.2 hq
  · exact hg.mem_topologicalOrder_iff.2 hc
  · exact checkLevelOrder_eq_nil_iff.1 h c.id c q.id q hc hp hq

/-- The order of a graph lists every commit once, and the check reports every edge along which
levels do not rise once. If it reports none, the order is a topological one and the graph has no
cycle. -/
theorem checkLevelOrder_ofList (commits : List (Commit κ)) :
    let g := Graph.ofList commits
    ((∀ c, c ∈ g.topologicalOrder ↔ g.held c.id = some c) ∧
        (g.topologicalOrder.map Commit.id).Nodup ∧ g.topologicalOrder.Pairwise Commit.Lower) ∧
      ((∀ v, v ∈ checkLevelOrder g ↔ ∃ c q, g.held c.id = some c ∧ q.id ∈ c.parentIds ∧
          g.held q.id = some q ∧ c.level ≤ q.level ∧ v = .levelOrder c.id q.id) ∧
        (checkLevelOrder g : List (Violation κ)).Nodup) ∧
      ((checkLevelOrder g : List (Violation κ)) = [] →
        (∀ c q, g.held c.id = some c → q.id ∈ c.parentIds → g.held q.id = some q →
          [q, c].Sublist g.topologicalOrder) ∧
        ∀ id, ¬Relation.TransGen g.LoadedParent id id) := by
  intro g
  have hg : g.Linked := Graph.linked_ofList commits
  refine ⟨⟨fun _ => hg.mem_topologicalOrder_iff, hg.nodup_topologicalOrder,
    hg.ascending_topologicalOrder⟩, ⟨fun _ => mem_checkLevelOrder_iff hg,
    nodup_checkLevelOrder hg⟩, fun h => ⟨?_, ?_⟩⟩
  · intro c q hc hp hq
    exact pair_sublist_of_checkLevelOrder hg h hc hp hq
  · intro id hcycle
    exact (checkLevelOrder_eq_nil_iff.1 h).acyclic id (Graph.transGen_loadedParent_iff.1 hcycle).2

/-- A merge of a commit with its own child is inserted first, and the root is not loaded. -/
theorem checkLevelOrder_ofList_merge :
    let g : Graph UInt64 := Graph.ofList [⟨4, .ofList [(2, []), (3, [])], 4, 0, none⟩,
      ⟨3, .single 2 [], 3, 0, none⟩, ⟨2, .single 1 [], 2, 0, none⟩]
    (checkLevelOrder g : List (Violation UInt64)) = [] ∧
      [⟨2, .single 1 [], 2, 0, none⟩, ⟨4, .ofList [(2, []), (3, [])], 4, 0, none⟩].Sublist
        g.topologicalOrder ∧
      ¬Relation.TransGen g.LoadedParent 2 2 := by
  intro g
  have hrises : g.Rises := by decide
  have hnone : (checkLevelOrder g : List (Violation UInt64)) = [] :=
    checkLevelOrder_eq_nil_iff.2 hrises
  have horder := (checkLevelOrder_ofList _).2.2 hnone
  exact ⟨hnone, horder.1 _ _ (by decide) (by decide) (by decide), horder.2 2⟩

end Confluence.Settled
