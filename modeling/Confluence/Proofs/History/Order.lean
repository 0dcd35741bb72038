import Confluence.Proofs.History.Frontier
import Confluence.Proofs.History.Lineage

/-!
# The order of a commit graph

The commits of a graph are sorted by level, and the sort keeps commits of one level in the order of
their ids. So they stand in strictly ascending order by level and id. Where levels rise along all
edges this is a topological order.
-/

namespace Confluence

open Std

variable {κ : Type} [CommitId κ]

/-! ## Places in a list -/

/-- Of two members of an ordered list the one that cannot come second comes first. -/
theorem pair_sublist_of_not_rel {α : Type} {R : α → α → Prop} {l : List α} {a b : α}
    (hl : l.Pairwise R) (ha : a ∈ l) (hb : b ∈ l) (hne : a ≠ b) (hba : ¬R b a) :
    [a, b].Sublist l := by
  rcases List.append_of_mem ha with ⟨s, t, rfl⟩
  rcases List.mem_append.1 hb with hb | hb
  · rw [List.pairwise_append] at hl
    exact absurd (hl.2.2 b hb a List.mem_cons_self) hba
  · rcases List.mem_cons.1 hb with rfl | hb
    · exact absurd rfl hne
    · have hrest : [a, b].Sublist (a :: t) := (List.singleton_sublist.2 hb).cons_cons a
      exact hrest.trans (List.sublist_append_right s _)

theorem not_pair_sublist_swap {α : Type} {l : List α} {a b : α} (hl : l.Nodup)
    (hab : [a, b].Sublist l) : ¬[b, a].Sublist l := by
  induction l with
  | nil => cases hab
  | cons x l ih =>
      rw [List.nodup_cons] at hl
      intro hba
      cases hab with
      | cons _ hab =>
          cases hba with
          | cons _ hba => exact ih hl.2 hab hba
          | cons_cons _ hba => exact hl.1 (hab.subset (by simp))
      | cons_cons _ hab =>
          cases hba with
          | cons _ hba => exact hl.1 (hba.subset (by simp))
          | cons_cons _ hba => exact hl.1 (hba.subset (by simp))

namespace Graph

variable {g : Graph κ}

/-! ## Listing the commits -/

theorem topologicalOrder_perm (g : Graph κ) : g.topologicalOrder.Perm g.commits :=
  List.mergeSort_perm ..

theorem mem_topologicalOrder {c : Commit κ} :
    c ∈ g.topologicalOrder ↔ ∃ id, g.held id = some c := by
  rw [g.topologicalOrder_perm.mem_iff]
  unfold commits OrdMap.values held
  rw [List.map_map, List.mem_map]
  constructor
  · intro h
    rcases h with ⟨⟨id, node⟩, hnode, rfl⟩
    refine ⟨id, ?_⟩
    rw [OrdMap.get?_eq_some_iff.2 hnode]
    rfl
  · intro h
    rcases h with ⟨id, hid⟩
    rcases Option.map_eq_some_iff.1 hid with ⟨node, hnode, rfl⟩
    exact ⟨(id, node), OrdMap.get?_eq_some_iff.1 hnode, rfl⟩

theorem Linked.mem_topologicalOrder_iff (hg : g.Linked) {c : Commit κ} :
    c ∈ g.topologicalOrder ↔ g.held c.id = some c := by
  rw [mem_topologicalOrder]
  constructor
  · intro h
    rcases h with ⟨id, hid⟩
    rw [hg.filed id c hid, hid]
  · exact fun h => ⟨c.id, h⟩

theorem Linked.ascending_commits (hg : g.Linked) :
    g.commits.Pairwise fun a b => compare a.id b.id = .lt := by
  unfold commits OrdMap.values
  rw [List.pairwise_map, List.pairwise_map]
  apply g.nodes.ascending.imp_of_mem
  intro a b ha hb hlt
  have hid {e : κ × GraphNode κ} (he : e ∈ g.nodes.toList) : e.2.commit.id = e.1 := by
    apply hg.filed e.1
    rw [held, OrdMap.get?_eq_some_iff.2 he, Option.map_some]
  rw [hid ha, hid hb]
  exact hlt

theorem Linked.nodup_topologicalOrder (hg : g.Linked) :
    (g.topologicalOrder.map Commit.id).Nodup := by
  rw [(g.topologicalOrder_perm.map Commit.id).nodup_iff, List.Nodup, List.pairwise_map]
  apply hg.ascending_commits.imp
  intro a b hlt heq
  simp [heq, ReflCmp.compare_self] at hlt

/-! ## Sorting them -/

theorem level_trans (a b c : Commit κ) (hab : decide (a.level ≤ b.level) = true)
    (hbc : decide (b.level ≤ c.level) = true) : decide (a.level ≤ c.level) = true := by
  rw [decide_eq_true_eq] at hab hbc ⊢
  exact Nat.le_trans hab hbc

theorem level_total (a b : Commit κ) :
    (decide (a.level ≤ b.level) || decide (b.level ≤ a.level)) = true := by
  rw [Bool.or_eq_true, decide_eq_true_eq, decide_eq_true_eq]
  exact Nat.le_total ..

theorem pairwise_level_topologicalOrder (g : Graph κ) :
    g.topologicalOrder.Pairwise fun a b => a.level ≤ b.level := by
  unfold topologicalOrder
  simpa using List.pairwise_mergeSort level_trans level_total g.commits

theorem Linked.ascending_topologicalOrder (hg : g.Linked) :
    g.topologicalOrder.Pairwise Commit.Lower := by
  rw [List.pairwise_iff_forall_sublist]
  intro a b hab
  have hle : a.level ≤ b.level :=
    List.pairwise_iff_forall_sublist.1 g.pairwise_level_topologicalOrder hab
  have hids : (g.topologicalOrder.map Commit.id).Nodup := hg.nodup_topologicalOrder
  have hne : a.id ≠ b.id := by
    have hsub := hab.map Commit.id
    simpa using hids.sublist hsub
  rcases Nat.lt_or_eq_of_le hle with hlt | heq
  · exact .inl hlt
  · refine .inr ⟨heq, ?_⟩
    -- a stable sort would have kept them the other way round
    by_contra hnot
    have hmem {c : Commit κ} (hc : c ∈ [a, b]) : c ∈ g.commits :=
      g.topologicalOrder_perm.mem_iff.1 (hab.subset hc)
    have hba : [b, a].Sublist g.commits :=
      pair_sublist_of_not_rel hg.ascending_commits (hmem (by simp)) (hmem (by simp))
        (fun h => hne (congrArg Commit.id h).symm) hnot
    have hsorted : [b, a].Sublist g.topologicalOrder :=
      List.pair_sublist_mergeSort level_trans level_total (by simp [heq]) hba
    exact not_pair_sublist_swap (.of_map _ hids) hab hsorted

theorem pair_sublist_topologicalOrder {c q : Commit κ} (hq : q ∈ g.topologicalOrder)
    (hc : c ∈ g.topologicalOrder) (hlt : q.level < c.level) :
    [q, c].Sublist g.topologicalOrder := by
  apply pair_sublist_of_not_rel g.pairwise_level_topologicalOrder hq hc
  · intro heq
    rw [heq] at hlt
    exact Nat.lt_irrefl _ hlt
  · exact Nat.not_le.2 hlt

end Graph

end Confluence
