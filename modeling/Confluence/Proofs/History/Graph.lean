import Confluence.History.Graph
import Mathlib.Data.List.Nodup
import Mathlib.Data.List.Perm.Subperm
import Mathlib.Logic.Relation

/-!
# What a commit graph holds

A commit that is inserted under a free id is held from then on, whatever links come with it. The
walk along some links of a graph reaches exactly the ends of the chains of one link or more: it
follows the links of the start and of every loaded commit that it meets, each once.
-/

namespace Confluence.Graph

variable {κ : Type} [CommitId κ] {g : Graph κ}

/-! ## Insertion -/

def held (g : Graph κ) (id : κ) : Option (Commit κ) := (g.nodes.get? id).map GraphNode.commit

theorem held_empty (id : κ) : (empty : Graph κ).held id = none := rfl

theorem contains_iff_held {id : κ} : g.contains id = true ↔ ∃ c, g.held id = some c := by
  unfold contains held
  rw [OrdMap.contains_iff]
  cases g.nodes.get? id with
  | none => simp
  | some node => simp

theorem held_link (child : κ) (g : Graph κ) (parent : κ) : (g.link child parent).held = g.held := by
  funext id
  unfold link
  split
  next node hnode =>
    unfold held
    rw [OrdMap.get?_insert]
    split
    next hid => simp [hid, hnode]
    next => rfl
  next => rfl

theorem held_foldl_link (child : κ) (parents : List κ) (g : Graph κ) :
    (parents.foldl (link child) g).held = g.held := by
  induction parents generalizing g with
  | nil => rfl
  | cons p parents ih => rw [List.foldl_cons, ih, held_link]

theorem held_insert (g : Graph κ) (c : Commit κ) (id : κ) :
    (g.insert c).held id = (g.held id).or (if id = c.id then some c else none) := by
  unfold insert
  split
  next hc =>
    rcases contains_iff_held.1 hc with ⟨d, hd⟩
    by_cases hid : id = c.id
    · simp [hid, hd]
    · simp [hid]
  next hc =>
    have hfold : (c.parentIds.foldl (link c.id) g).held id = g.held id := by
      rw [held_foldl_link]
    have hfree : g.held c.id = none := by
      cases hd : g.held c.id with
      | none => rfl
      | some d => exact absurd (contains_iff_held.2 ⟨d, hd⟩) hc
    rw [← hfold]
    unfold held
    rw [OrdMap.get?_insert]
    by_cases hid : id = c.id
    · subst hid
      unfold held at hfree hfold
      simp [hfold, hfree]
    · simp [hid]

/-! ## Walking along links -/

def Links (g : Graph κ) (links : GraphNode κ → List κ) (a b : κ) : Prop :=
  ∃ node, g.nodes.get? b = some node ∧ a ∈ links node

/-- Where a walk stands that has visited some ids and has others in its queue: beside the start
these are the loaded ids that have been seen, each once. -/
structure Reaching (g : Graph κ) (links : GraphNode κ → List κ) (origin : κ)
    (visited queue : List κ) (seen : OrdSet κ) : Prop where
  met : ∃ l, visited ++ queue = origin :: l ∧ l.Nodup ∧ ∀ x, x ∈ l ↔ x ∈ seen ∧ g.contains x = true
  sound : ∀ x ∈ seen, Relation.TransGen (g.Links links) x origin
  followed : ∀ x ∈ visited, ∀ y, g.Links links y x → y ∈ seen

namespace Reaching

variable {links : GraphNode κ → List κ} {origin id : κ} {visited queue : List κ} {seen : OrdSet κ}

theorem start (g : Graph κ) (links : GraphNode κ → List κ) (origin : κ) :
    g.Reaching links origin [] [origin] ∅ where
  met := ⟨[], rfl, .nil, fun x => by simp [OrdSet.not_mem_empty]⟩
  sound := fun x hx => absurd hx (OrdSet.not_mem_empty x)
  followed := fun x hx => absurd hx List.not_mem_nil

/-- The start may be met twice, every other id once. -/
theorem length_le (h : g.Reaching links origin visited queue seen) :
    visited.length + queue.length ≤ g.size + 1 := by
  rcases h.met with ⟨l, hl, hnodup, hmem⟩
  have hsub : l ⊆ g.nodes.keys := by
    intro x hx
    rcases OrdMap.contains_iff.1 ((hmem x).1 hx).2 with ⟨node, hnode⟩
    exact OrdMap.mem_keys.2 ⟨node, hnode⟩
  have hle : l.length ≤ g.size := by
    rw [size, ← OrdMap.length_keys]
    exact (hnodup.subperm hsub).length_le
  have hlength := congrArg List.length hl
  rw [List.length_append, List.length_cons] at hlength
  omega

theorem reached_or_origin (h : g.Reaching links origin visited (id :: queue) seen) :
    id = origin ∨ Relation.TransGen (g.Links links) id origin := by
  rcases h.met with ⟨l, hl, -, hmem⟩
  have hid : id ∈ origin :: l := by
    rw [← hl]
    simp
  rcases List.mem_cons.1 hid with horigin | hid
  · exact .inl horigin
  · exact .inr (h.sound id ((hmem id).1 hid).1)

theorem skip (h : g.Reaching links origin visited (id :: queue) seen)
    (hid : g.nodes.get? id = none) : g.Reaching links origin (visited ++ [id]) queue seen where
  met := by
    rcases h.met with ⟨l, hl, hrest⟩
    exact ⟨l, by simpa using hl, hrest⟩
  sound := h.sound
  followed := by
    intro x hx y hy
    rcases List.mem_append.1 hx with hx | hx
    · exact h.followed x hx y hy
    · rcases hy with ⟨node, hnode, -⟩
      rw [List.mem_singleton.1 hx, hid] at hnode
      cases hnode

theorem visit (h : g.Reaching links origin visited (id :: queue) seen) {node : GraphNode κ}
    (hid : g.nodes.get? id = some node) (hlinks : (links node).Nodup) :
    g.Reaching links origin (visited ++ [id])
      (queue ++ ((links node).filter fun i => !seen.contains i).filter g.contains)
      (seen.insertMany ((links node).filter fun i => !seen.contains i)) := by
  have hfresh {x : κ} : (x ∈ (links node).filter fun i => !seen.contains i) ↔
      x ∈ links node ∧ x ∉ seen := by
    rw [List.mem_filter, ← OrdSet.contains_iff_mem]
    simp
  constructor
  · rcases h.met with ⟨l, hl, hnodup, hmem⟩
    refine ⟨l ++ ((links node).filter fun i => !seen.contains i).filter g.contains, ?_, ?_, ?_⟩
    · have happend := congrArg
        (· ++ ((links node).filter fun i => !seen.contains i).filter g.contains) hl
      simpa using happend
    · apply List.Nodup.append hnodup ((hlinks.filter _).filter _)
      intro x hx hnew
      exact (hfresh.1 (List.mem_of_mem_filter hnew)).2 ((hmem x).1 hx).1
    · intro x
      rw [List.mem_append, hmem, OrdSet.mem_insertMany, List.mem_filter]
      tauto
  · intro x hx
    rcases OrdSet.mem_insertMany.1 hx with hx | hx
    · exact h.sound x hx
    · have hlink : g.Links links x id := ⟨node, hid, (hfresh.1 hx).1⟩
      rcases h.reached_or_origin with rfl | hreached
      · exact .single hlink
      · exact Relation.TransGen.head hlink hreached
  · intro x hx y hy
    rw [OrdSet.mem_insertMany]
    rcases List.mem_append.1 hx with hx | hx
    · exact .inl (h.followed x hx y hy)
    · rcases hy with ⟨node', hnode, hy⟩
      rw [List.mem_singleton.1 hx, hid] at hnode
      cases hnode
      by_cases hseen : y ∈ seen
      · exact .inl hseen
      · exact .inr (hfresh.2 ⟨hy, hseen⟩)

/-- A walk with an empty queue has seen the ends of all chains. -/
theorem mem_iff (h : g.Reaching links origin visited [] seen) (x : κ) :
    x ∈ seen ↔ Relation.TransGen (g.Links links) x origin := by
  constructor
  · exact h.sound x
  · rcases h.met with ⟨l, hl, -, hmem⟩
    rw [List.append_nil] at hl
    intro hx
    induction hx using Relation.TransGen.head_induction_on with
    | single hlink => exact h.followed origin (by simp [hl]) _ hlink
    | head hlink _ ih =>
        refine h.followed _ ?_ _ hlink
        rcases hlink with ⟨node, hnode, -⟩
        rw [hl, List.mem_cons, hmem]
        exact .inr ⟨ih, OrdMap.contains_iff.2 ⟨node, hnode⟩⟩

end Reaching

variable {links : GraphNode κ → List κ}

/-- The walk does not run out of fuel, since every step visits another id. -/
theorem mem_reach_iff (hlinks : ∀ id node, g.nodes.get? id = some node → (links node).Nodup)
    {origin x : κ} {fuel : Nat} {visited queue : List κ} {seen : OrdSet κ}
    (h : g.Reaching links origin visited queue seen) (hfuel : fuel + visited.length = g.size + 1) :
    x ∈ g.reach links fuel queue seen ↔ Relation.TransGen (g.Links links) x origin := by
  induction fuel generalizing visited queue seen with
  | zero =>
      have hle := h.length_le
      have hqueue : queue = [] := List.eq_nil_of_length_eq_zero (by omega)
      subst hqueue
      exact h.mem_iff x
  | succ fuel ih =>
      cases queue with
      | nil => exact h.mem_iff x
      | cons id queue =>
          have hlength : fuel + (visited ++ [id]).length = g.size + 1 := by
            rw [List.length_append, List.length_singleton]
            omega
          unfold reach
          cases hnode : g.nodes.get? id with
          | none => exact ih (h.skip hnode) hlength
          | some node => exact ih (h.visit hnode (hlinks id node hnode)) hlength

theorem mem_reachFrom_iff (hlinks : ∀ id node, g.nodes.get? id = some node → (links node).Nodup)
    {origin x : κ} :
    x ∈ g.reachFrom links origin ↔ Relation.TransGen (g.Links links) x origin :=
  mem_reach_iff hlinks (.start g links origin) rfl

def IsParent (g : Graph κ) (p c : κ) : Prop :=
  ∃ commit, g.held c = some commit ∧ p ∈ commit.parentIds

theorem links_parents_iff {p c : κ} :
    g.Links (fun n => n.commit.parentIds) p c ↔ g.IsParent p c := by
  unfold Links IsParent held
  cases g.nodes.get? c with
  | none => simp
  | some node => simp

def Rises (g : Graph κ) : Prop :=
  ∀ id c p q, g.held id = some c → p ∈ c.parentIds → g.held p = some q → q.level < c.level

theorem mem_ancestors_iff {a d : κ} : a ∈ g.ancestors d ↔ Relation.TransGen g.IsParent a d := by
  have hrel : g.Links (fun n => n.commit.parentIds) = g.IsParent := by
    funext p c
    exact propext links_parents_iff
  have hnodup : ∀ id node, g.nodes.get? id = some node → node.commit.parentIds.Nodup :=
    fun _ node _ => OrdMap.nodup_keys node.commit.parents
  rw [ancestors, mem_reachFrom_iff hnodup, hrel]

theorem isAncestor_iff {a d : κ} :
    g.isAncestor a d = true ↔ a ≠ d ∧ Relation.TransGen g.IsParent a d := by
  rw [isAncestor, Bool.and_eq_true, decide_eq_true_eq, OrdSet.contains_iff_mem, mem_ancestors_iff]

end Confluence.Graph
