import Confluence.Proofs.History.Ancestry
import Confluence.Proofs.History.Links

/-!
# Ancestors and descendants in a commit graph

The ancestors of a commit are found over parents and its descendants over children. Both searches
follow the same edges as long as these join loaded commits. But a loaded commit also names parents
that are not loaded, and the search for ancestors lists them, while nothing can be found from them
in the other direction. So a graph lists an ancestor that it does not hold exactly if some child
waits for its parent.
-/

namespace Confluence.Graph

variable {κ : Type} [CommitId κ] {g : Graph κ} {a b c d p : κ}

/-! ## The loaded commits as a history -/

def history (g : Graph κ) : History κ := g.nodes.map GraphNode.commit

theorem get?_history (g : Graph κ) (id : κ) : g.history.get? id = g.held id := OrdMap.get?_map ..

theorem isParent_history : g.history.IsParent p c ↔ g.IsParent p c := by
  unfold History.IsParent IsParent
  simp only [get?_history, Commit.parentIds, OrdMap.mem_keys, exists_and_left]

theorem Rises.history (hr : g.Rises) : g.history.Rises := by
  intro p c cp cc hp hcp hcc
  rw [get?_history] at hcp hcc
  rcases isParent_history.1 hp with ⟨commit, hc, hp⟩
  rw [hcc] at hc
  cases hc
  exact hr c cc p cp hcc hp hcp

theorem rises_iff : g.Rises ↔ ∀ e ∈ g.nodes.toList, ∀ p ∈ e.2.commit.parentIds,
    (g.held p).all fun q => q.level < e.2.commit.level := by
  have hparent {p : κ} {n : Nat} : ((g.held p).all fun q => q.level < n) = true ↔
      ∀ q, g.held p = some q → q.level < n := by
    cases g.held p <;> simp
  constructor
  · intro hr e he p hp
    have hheld : g.held e.1 = some e.2.commit := by
      rw [held, OrdMap.get?_eq_some_iff.2 he, Option.map_some]
    exact hparent.2 fun q hq => hr e.1 e.2.commit p q hheld hp hq
  · intro h id c p q hc hp hq
    rcases Option.map_eq_some_iff.1 hc with ⟨node, hnode, rfl⟩
    exact hparent.1 (h (id, node) (OrdMap.get?_eq_some_iff.1 hnode) p hp) q hq

instance : Decidable g.Rises := decidable_of_iff _ rises_iff.symm

theorem Rises.acyclic (hr : g.Rises) (a : κ) : ¬Relation.TransGen g.IsParent a a := by
  intro ha
  apply hr.history.acyclic a
  exact Relation.TransGen.mono (fun _ _ => isParent_history.2) _ _ ha

/-! ## Chains of loaded commits -/

def LoadedParent (g : Graph κ) (p c : κ) : Prop := g.contains p = true ∧ g.IsParent p c

theorem IsParent.contains (hp : g.IsParent p c) : g.contains c = true := by
  rcases hp with ⟨commit, hc, -⟩
  exact contains_iff_held.2 ⟨commit, hc⟩

/-- All but the lowest commit of a chain of parents are loaded. -/
theorem reflTransGen_loadedParent (hb : g.contains b = true)
    (h : Relation.ReflTransGen g.IsParent b d) : Relation.ReflTransGen g.LoadedParent b d := by
  induction h using Relation.ReflTransGen.head_induction_on with
  | refl => exact .refl
  | head hp _ ih => exact .head ⟨hb, hp⟩ (ih hp.contains)

theorem transGen_isParent_iff : Relation.TransGen g.IsParent a d ↔
    ∃ b, g.IsParent a b ∧ Relation.ReflTransGen g.LoadedParent b d := by
  rw [Relation.TransGen.head'_iff]
  constructor
  · intro h
    rcases h with ⟨b, hp, hb⟩
    exact ⟨b, hp, reflTransGen_loadedParent hp.contains hb⟩
  · intro h
    rcases h with ⟨b, hp, hb⟩
    exact ⟨b, hp, Relation.ReflTransGen.mono (fun _ _ h => h.2) _ _ hb⟩

theorem transGen_loadedParent_iff : Relation.TransGen g.LoadedParent a d ↔
    g.contains a = true ∧ Relation.TransGen g.IsParent a d := by
  rw [transGen_isParent_iff, Relation.TransGen.head'_iff]
  constructor
  · intro h
    rcases h with ⟨b, hp, hb⟩
    exact ⟨hp.1, b, hp.2, hb⟩
  · intro h
    rcases h with ⟨ha, b, hp, hb⟩
    exact ⟨b, ⟨ha, hp⟩, hb⟩

/-! ## The two searches -/

theorem Linked.links_children_iff (hg : g.Linked) :
    g.Links (fun n => n.children.toList) c p ↔ g.LoadedParent p c := by
  unfold Links LoadedParent
  rw [contains, OrdMap.contains_iff]
  constructor
  · intro h
    rcases h with ⟨node, hnode, hc⟩
    exact ⟨⟨node, hnode⟩, (hg.children p node hnode c).1 hc⟩
  · intro h
    rcases h with ⟨⟨node, hnode⟩, hp⟩
    exact ⟨node, hnode, (hg.children p node hnode c).2 hp⟩

theorem Linked.mem_descendants_iff (hg : g.Linked) :
    d ∈ g.descendants a ↔ Relation.TransGen g.LoadedParent a d := by
  have hrel : g.Links (fun n => n.children.toList) = Function.swap g.LoadedParent := by
    funext c p
    exact propext hg.links_children_iff
  have hnodup : ∀ id node, g.nodes.get? id = some node → node.children.toList.Nodup :=
    fun _ node _ => node.children.nodup_toList
  rw [descendants, mem_reachFrom_iff hnodup, hrel, Relation.transGen_swap]

/-- No ancestor is missing exactly if no child waits for its parent. -/
theorem Linked.contains_ancestors_iff (hg : g.Linked) :
    (∀ a d, a ∈ g.ancestors d → g.contains a = true) ↔ g.waiting = ∅ := by
  constructor
  · intro h
    apply OrdMap.ext
    intro id
    rw [OrdMap.get?_empty, Option.eq_none_iff_forall_ne_some]
    intro s hs
    rcases (hg.waiting_iff id).1 ⟨s, hs⟩ with ⟨hmissing, x, hx⟩
    have hloaded := h id x (mem_ancestors_iff.2 (.single hx))
    rw [hmissing] at hloaded
    cases hloaded
  · intro h a d ha
    rw [mem_ancestors_iff, transGen_isParent_iff] at ha
    rcases ha with ⟨b, hp, -⟩
    by_contra hmissing
    rw [Bool.not_eq_true] at hmissing
    rcases (hg.waiting_iff a).2 ⟨hmissing, b, hp⟩ with ⟨s, hs⟩
    rw [h, OrdMap.get?_empty] at hs
    cases hs

/-- The ancestors that a graph lists are the parents of a commit and of the loaded commits that are
reached over loaded parents. Those that are loaded are the ones from which the commit descends, and
the only ones if no child waits for its parent. -/
theorem ofList_lineage (commits : List (Commit κ)) (hr : (ofList commits).Rises) :
    let g := ofList commits
    (∀ a d,
      (a ∈ g.ancestors d ↔ ∃ b, g.IsParent a b ∧ Relation.ReflTransGen g.LoadedParent b d) ∧
      (g.isAncestor a d = true ↔ a ∈ g.ancestors d) ∧
      (d ∈ g.descendants a ↔ Relation.TransGen g.LoadedParent a d) ∧
      (d ∈ g.descendants a ↔ g.contains a = true ∧ a ∈ g.ancestors d)) ∧
    ((∀ a d, a ∈ g.ancestors d → g.contains a = true) ↔ g.waiting = ∅) := by
  intro g
  have hg : g.Linked := linked_ofList commits
  refine ⟨fun a d => ⟨?_, ?_, ?_, ?_⟩, hg.contains_ancestors_iff⟩
  · rw [mem_ancestors_iff, transGen_isParent_iff]
  · rw [isAncestor_iff, mem_ancestors_iff]
    refine and_iff_right_of_imp ?_
    rintro ha rfl
    exact hr.acyclic a ha
  · exact hg.mem_descendants_iff
  · rw [hg.mem_descendants_iff, transGen_loadedParent_iff, mem_ancestors_iff]

/-- A window with a merge and one of its parents. -/
theorem ofList_lineage_window :
    let g : Graph UInt64 := ofList
      [⟨4, .ofList [(2, []), (3, [])], 3, 0, none⟩, ⟨3, .single 1 [], 2, 0, none⟩]
    g.Rises ∧ Relation.TransGen g.LoadedParent 3 4 ∧ 1 ∈ g.ancestors 4 ∧
      ¬Relation.TransGen g.LoadedParent 1 4 := by
  intro g
  have hr : g.Rises := by decide
  have hlineage := (ofList_lineage _ hr).1
  have hdescends : 4 ∈ (g.descendants 3).toList := by decide
  have hnot : 4 ∉ (g.descendants 1).toList := by decide
  have hancestor : 1 ∈ (g.ancestors 4).toList := by decide
  refine ⟨hr, (hlineage 3 4).2.2.1.1 hdescends, hancestor, ?_⟩
  intro h
  exact hnot ((hlineage 1 4).2.2.1.2 h)

/-- A parent that is not loaded is listed as an ancestor, but has no descendants. -/
theorem ancestors_missing_parent :
    let g : Graph UInt64 := ofList [⟨2, .single 1 [], 2, 0, none⟩]
    g.Rises ∧ g.contains 1 = false ∧ 1 ∈ g.ancestors 2 ∧ g.isAncestor 1 2 = true ∧
      2 ∉ g.descendants 1 ∧ ¬Relation.TransGen g.LoadedParent 1 2 := by
  intro g
  have hmissing : g.contains 1 = false := by decide
  have hancestor : 1 ∈ (g.ancestors 2).toList := by decide
  have hnot : 2 ∉ (g.descendants 1).toList := by decide
  refine ⟨by decide, hmissing, hancestor, by decide, hnot, ?_⟩
  intro h
  rw [(transGen_loadedParent_iff.1 h).1] at hmissing
  cases hmissing

end Confluence.Graph
