import Confluence.Proofs.History.Graph

/-!
# Links of a commit graph

A child is noted under the id of each of its parents, with the parent if that is loaded and among
the waiting otherwise. A commit that arrives takes over what has been noted under its id, so under
every id stand the loaded children, whatever came first. A graph is therefore determined by the
commits that it holds, and of the commits that were inserted under one id it holds the first.
-/

namespace Confluence.Graph

variable {κ : Type} [CommitId κ] {g g' : Graph κ} {id p x : κ}

/-! ## What is noted under an id -/

def noted (g : Graph κ) (id : κ) : OrdSet κ :=
  match g.nodes.get? id with
  | some node => node.children
  | none => (g.waiting.get? id).getD ∅

theorem noted_of_node {node : GraphNode κ} (h : g.nodes.get? id = some node) :
    g.noted id = node.children := by
  simp only [noted, h]

theorem noted_of_missing (h : g.nodes.get? id = none) :
    g.noted id = (g.waiting.get? id).getD ∅ := by
  simp only [noted, h]

theorem contains_eq_isSome_held (g : Graph κ) (id : κ) : g.contains id = (g.held id).isSome := by
  rw [held, Option.isSome_map]
  rfl

theorem contains_eq_false_iff : g.contains id = false ↔ g.nodes.get? id = none := by
  rw [contains, OrdMap.contains, Option.isSome_eq_false_iff, Option.isNone_iff_eq_none]

theorem contains_link (child parent : κ) : (g.link child parent).contains id = g.contains id := by
  rw [contains_eq_isSome_held, held_link, ← contains_eq_isSome_held]

theorem contains_foldl_link (child : κ) (parents : List κ) :
    (parents.foldl (link child) g).contains id = g.contains id := by
  rw [contains_eq_isSome_held, held_foldl_link, ← contains_eq_isSome_held]

theorem mem_noted_link {child parent : κ} :
    x ∈ (g.link child parent).noted id ↔ x ∈ g.noted id ∨ x = child ∧ id = parent := by
  unfold link
  split
  next node hnode =>
    by_cases hid : id = parent
    · subst hid
      rw [noted_of_node (OrdMap.get?_insert_self ..), noted_of_node hnode, OrdSet.mem_insert]
      tauto
    · simp [noted, OrdMap.get?_insert_of_ne _ _ hid, hid]
  next hnode =>
    by_cases hid : id = parent
    · subst hid
      simp only [noted, hnode, OrdMap.get?_insert_self, Option.getD_some, OrdSet.mem_insert]
      tauto
    · simp [noted, OrdMap.get?_insert_of_ne _ _ hid, hid]

theorem mem_noted_foldl_link {child : κ} {parents : List κ} :
    x ∈ (parents.foldl (link child) g).noted id ↔ x ∈ g.noted id ∨ x = child ∧ id ∈ parents := by
  induction parents generalizing g with
  | nil => simp
  | cons parent parents ih =>
      rw [List.foldl_cons, ih, mem_noted_link, List.mem_cons]
      tauto

/-! ## Insertion -/

theorem insert_of_contains {c : Commit κ} (hc : g.contains c.id = true) : g.insert c = g := by
  rw [insert, if_pos]
  exact hc

theorem insert_of_not_contains {c : Commit κ} (hc : g.contains c.id = false) :
    g.insert c =
      { nodes := (c.parentIds.foldl (link c.id) g).nodes.insert c.id
          ⟨c, ((c.parentIds.foldl (link c.id) g).waiting.get? c.id).getD ∅⟩
        waiting := (c.parentIds.foldl (link c.id) g).waiting.erase c.id } := by
  rw [insert, if_neg]
  rw [contains] at hc
  simp [hc]

/-- The arriving commit takes over what waited for it, and is noted under its parents. -/
theorem mem_noted_insert {c : Commit κ} (hc : g.contains c.id = false) :
    x ∈ (g.insert c).noted id ↔ x ∈ g.noted id ∨ x = c.id ∧ id ∈ c.parentIds := by
  rw [← mem_noted_foldl_link, insert_of_not_contains hc]
  by_cases hid : id = c.id
  · subst hid
    have hmissing : (c.parentIds.foldl (link c.id) g).nodes.get? c.id = none := by
      rw [← contains_eq_false_iff, contains_foldl_link, hc]
    rw [noted_of_node (OrdMap.get?_insert_self ..), noted_of_missing hmissing]
  · simp only [noted, OrdMap.get?_insert_of_ne _ _ hid, OrdMap.get?_erase_of_ne _ hid]

theorem isParent_insert {c : Commit κ} (hc : g.contains c.id = false) :
    (g.insert c).IsParent p x ↔ g.IsParent p x ∨ x = c.id ∧ p ∈ c.parentIds := by
  unfold IsParent
  rw [held_insert]
  by_cases hx : x = c.id
  · have hfree : g.held c.id = none := by
      rw [contains_eq_isSome_held] at hc
      simpa using hc
    simp [hx, hfree]
  · simp [hx]

/-- Ids under which children wait are those of commits that are not loaded. -/
def Parked (g : Graph κ) : Prop :=
  ∀ id s, g.waiting.get? id = some s → g.contains id = false ∧ ∃ x, x ∈ s

theorem Parked.link (hg : g.Parked) (child parent : κ) : (g.link child parent).Parked := by
  intro id s hs
  rw [contains_link]
  unfold Graph.link at hs
  split at hs
  next => exact hg id s hs
  next hnode =>
    rw [OrdMap.get?_insert] at hs
    split at hs
    next hid =>
      cases hs
      rw [hid, contains_eq_false_iff]
      exact ⟨hnode, child, OrdSet.mem_insert.2 (.inl rfl)⟩
    next => exact hg id s hs

theorem Parked.foldl_link (hg : g.Parked) (child : κ) (parents : List κ) :
    (parents.foldl (Graph.link child) g).Parked := by
  induction parents generalizing g with
  | nil => exact hg
  | cons parent parents ih => exact ih (hg.link child parent)

theorem Parked.insert (hg : g.Parked) {c : Commit κ} (hc : g.contains c.id = false) :
    (g.insert c).Parked := by
  intro id s hs
  rw [insert_of_not_contains hc] at hs ⊢
  rw [OrdMap.get?_erase] at hs
  split at hs
  next => cases hs
  next hid =>
    rcases hg.foldl_link c.id c.parentIds id s hs with ⟨hmissing, hs⟩
    rw [contains_eq_false_iff, OrdMap.get?_insert_of_ne _ _ hid, ← contains_eq_false_iff]
    exact ⟨hmissing, hs⟩

/-! ## Links after insertions -/

structure Tidy (g : Graph κ) : Prop where
  filed : ∀ id c, g.held id = some c → c.id = id
  parked : g.Parked
  noted : ∀ id x, x ∈ g.noted id ↔ g.IsParent id x

theorem tidy_empty : (empty : Graph κ).Tidy where
  filed := fun id c hc => by cases hc
  parked := fun id s hs => by cases hs
  noted := by
    intro id x
    refine iff_of_false (OrdSet.not_mem_empty x) ?_
    intro h
    rcases h with ⟨c, hc, -⟩
    cases hc

theorem Tidy.insert (hg : g.Tidy) (c : Commit κ) : (g.insert c).Tidy := by
  cases hc : g.contains c.id with
  | true => rwa [insert_of_contains hc]
  | false =>
      refine ⟨?_, hg.parked.insert hc, ?_⟩
      · intro id d hd
        rw [held_insert, Option.or_eq_some_iff] at hd
        rcases hd with hd | ⟨-, hd⟩
        · exact hg.filed id d hd
        · split at hd
          next hid =>
            cases hd
            exact hid.symm
          next => cases hd
      · intro id x
        rw [mem_noted_insert hc, isParent_insert hc, hg.noted]

theorem Tidy.foldl_insert (hg : g.Tidy) (commits : List (Commit κ)) :
    (commits.foldl Graph.insert g).Tidy := by
  induction commits generalizing g with
  | nil => exact hg
  | cons c commits ih => exact ih (hg.insert c)

/-- Commits are held under their ids, each with its loaded children, and the loaded children of any
other id, if there are some, wait under it. -/
structure Linked (g : Graph κ) : Prop where
  filed : ∀ id c, g.held id = some c → c.id = id
  children : ∀ id node, g.nodes.get? id = some node → ∀ x, x ∈ node.children ↔ g.IsParent id x
  waiting : ∀ id s, g.waiting.get? id = some s → ∀ x, x ∈ s ↔ g.IsParent id x
  waiting_iff : ∀ id, (∃ s, g.waiting.get? id = some s) ↔
    g.contains id = false ∧ ∃ x, g.IsParent id x

theorem Tidy.linked (hg : g.Tidy) : g.Linked where
  filed := hg.filed
  children := by
    intro id node hnode x
    rw [← hg.noted, noted_of_node hnode]
  waiting := by
    intro id s hs x
    have hmissing := contains_eq_false_iff.1 (hg.parked id s hs).1
    rw [← hg.noted, noted_of_missing hmissing, hs, Option.getD_some]
  waiting_iff := by
    intro id
    constructor
    · intro h
      rcases h with ⟨s, hs⟩
      rcases hg.parked id s hs with ⟨hmissing, x, hx⟩
      refine ⟨hmissing, x, ?_⟩
      rw [← hg.noted, noted_of_missing (contains_eq_false_iff.1 hmissing), hs, Option.getD_some]
      exact hx
    · intro h
      rcases h with ⟨hmissing, x, hx⟩
      rw [← hg.noted, noted_of_missing (contains_eq_false_iff.1 hmissing)] at hx
      cases hs : g.waiting.get? id with
      | some s => exact ⟨s, rfl⟩
      | none =>
          rw [hs] at hx
          exact absurd hx (OrdSet.not_mem_empty x)

theorem linked_ofList (commits : List (Commit κ)) : (ofList commits).Linked :=
  (tidy_empty.foldl_insert commits).linked

/-! ## What determines a graph -/

theorem Linked.node_of_held_eq (hg : g.Linked) (hg' : g'.Linked) (h : g.held = g'.held)
    {node : GraphNode κ} (hnode : g.nodes.get? id = some node) : g'.nodes.get? id = some node := by
  have hcommit : g'.held id = some node.commit := by
    rw [← h, held, hnode, Option.map_some]
  rcases Option.map_eq_some_iff.1 hcommit with ⟨⟨commit, children⟩, hnode', rfl⟩
  have hchildren : children = node.children := by
    apply OrdSet.ext
    intro x
    rw [hg'.children id _ hnode', hg.children id node hnode, IsParent, IsParent, h]
  rw [hnode', hchildren]

theorem Linked.waiting_of_held_eq (hg : g.Linked) (hg' : g'.Linked) (h : g.held = g'.held)
    {s : OrdSet κ} (hs : g.waiting.get? id = some s) : g'.waiting.get? id = some s := by
  rcases (hg.waiting_iff id).1 ⟨s, hs⟩ with ⟨hmissing, x, hx⟩
  rw [contains_eq_isSome_held, h, ← contains_eq_isSome_held] at hmissing
  rw [IsParent, h, ← IsParent] at hx
  rcases (hg'.waiting_iff id).2 ⟨hmissing, x, hx⟩ with ⟨s', hs'⟩
  have hset : s' = s := by
    apply OrdSet.ext
    intro y
    rw [hg'.waiting id s' hs', hg.waiting id s hs, IsParent, IsParent, h]
  rw [hs', hset]

/-- A linked graph is determined by the commits that it holds. -/
theorem Linked.ext (hg : g.Linked) (hg' : g'.Linked) (h : g.held = g'.held) : g = g' := by
  have hnodes : g.nodes = g'.nodes := by
    apply OrdMap.ext
    intro id
    apply Option.ext
    intro node
    exact ⟨hg.node_of_held_eq hg' h, hg'.node_of_held_eq hg h.symm⟩
  have hwaiting : g.waiting = g'.waiting := by
    apply OrdMap.ext
    intro id
    apply Option.ext
    intro s
    exact ⟨hg.waiting_of_held_eq hg' h, hg'.waiting_of_held_eq hg h.symm⟩
  cases g
  cases g'
  cases hnodes
  cases hwaiting
  rfl

theorem held_ofList (commits : List (Commit κ)) (id : κ) :
    (ofList commits).held id = commits.find? fun c => c.id = id := by
  have hfold (g : Graph κ) : (commits.foldl insert g).held id =
      (g.held id).or (commits.find? fun c => c.id = id) := by
    induction commits generalizing g with
    | nil => exact Option.or_none.symm
    | cons c commits ih =>
        rw [List.foldl_cons, ih, held_insert, List.find?_cons, Option.or_assoc]
        by_cases hid : c.id = id
        · simp [hid]
        · simp [hid, Ne.symm hid]
  exact hfold empty

theorem held_ofList_iff {commits : List (Commit κ)}
    (hids : ∀ c ∈ commits, ∀ d ∈ commits, c.id = d.id → c = d) {id : κ} {c : Commit κ} :
    (ofList commits).held id = some c ↔ c ∈ commits ∧ c.id = id := by
  rw [held_ofList]
  constructor
  · intro hc
    exact ⟨List.mem_of_find?_eq_some hc, by simpa using List.find?_some hc⟩
  · intro hc
    rcases hc with ⟨hc, rfl⟩
    cases hd : commits.find? fun d => d.id = c.id with
    | none => simpa using List.find?_eq_none.1 hd c hc
    | some d =>
        have hid : d.id = c.id := by simpa using List.find?_some hd
        rw [hids d (List.mem_of_find?_eq_some hd) c hc hid]

/-- Neither the order of insertions nor their repetition shows in the graph, as long as an id has
one content. -/
theorem ofList_congr {commits commits' : List (Commit κ)} (h : ∀ c, c ∈ commits' ↔ c ∈ commits)
    (hids : ∀ c ∈ commits, ∀ d ∈ commits, c.id = d.id → c = d) :
    ofList commits' = ofList commits := by
  have hids' : ∀ c ∈ commits', ∀ d ∈ commits', c.id = d.id → c = d :=
    fun c hc d hd => hids c ((h c).1 hc) d ((h d).1 hd)
  apply (linked_ofList commits').ext (linked_ofList commits)
  funext id
  apply Option.ext
  intro c
  rw [held_ofList_iff hids', held_ofList_iff hids, h]

/-! ## Roots and tips -/

theorem ascending_map_filter (g : Graph κ) (keep : κ × GraphNode κ → Bool) :
    ((g.nodes.toList.filter keep).map (·.1)).Pairwise fun a b => compare a b = .lt := by
  rw [List.pairwise_map]
  exact g.nodes.ascending.filter keep

theorem mem_roots_iff : id ∈ g.roots ↔
    g.contains id = true ∧ ∀ p, g.IsParent p id → g.contains p = false := by
  have hlisted : id ∈ g.roots ↔ ∃ node, g.nodes.get? id = some node ∧
      ∀ p ∈ node.commit.parentIds, g.contains p = false := by
    simp [roots, OrdMap.get?_eq_some_iff]
  rw [hlisted, contains, OrdMap.contains_iff]
  unfold IsParent held
  cases g.nodes.get? id with
  | none => simp
  | some node => simp

theorem mem_tips_iff (hg : g.Linked) : id ∈ g.tips ↔
    g.contains id = true ∧ ∀ x, ¬g.IsParent id x := by
  have hlisted : id ∈ g.tips ↔ ∃ node, g.nodes.get? id = some node ∧
      ∀ x, x ∉ node.children := by
    simp [tips, OrdMap.get?_eq_some_iff, OrdSet.isEmpty, OrdSet.mem_def,
      List.eq_nil_iff_forall_not_mem]
  rw [hlisted, contains, OrdMap.contains_iff]
  constructor
  · intro h
    rcases h with ⟨node, hnode, hnone⟩
    refine ⟨⟨node, hnode⟩, ?_⟩
    intro x hx
    exact hnone x ((hg.children id node hnode x).2 hx)
  · intro h
    rcases h with ⟨⟨node, hnode⟩, hnone⟩
    refine ⟨node, hnode, ?_⟩
    intro x hx
    exact hnone x ((hg.children id node hnode x).1 hx)

/-- After any insertions a graph holds the first commit of every id with its links. Its tips have no
loaded child and its roots no loaded parent, and another order of the same commits gives the same
graph. -/
theorem ofList_links (commits : List (Commit κ)) :
    (∀ id, (ofList commits).held id = commits.find? fun c => c.id = id) ∧
      (ofList commits).Linked ∧
      ((∀ id, id ∈ (ofList commits).tips ↔ (ofList commits).contains id = true ∧
          ∀ x, ¬(ofList commits).IsParent id x) ∧
        (ofList commits).tips.Pairwise fun a b => compare a b = .lt) ∧
      ((∀ id, id ∈ (ofList commits).roots ↔ (ofList commits).contains id = true ∧
          ∀ p, (ofList commits).IsParent p id → (ofList commits).contains p = false) ∧
        (ofList commits).roots.Pairwise fun a b => compare a b = .lt) ∧
      ∀ commits', (∀ c, c ∈ commits' ↔ c ∈ commits) →
        (∀ c ∈ commits, ∀ d ∈ commits, c.id = d.id → c = d) →
        ofList commits' = ofList commits :=
  ⟨held_ofList commits, linked_ofList commits,
    ⟨fun _ => mem_tips_iff (linked_ofList commits), ascending_map_filter _ _⟩,
    ⟨fun _ => mem_roots_iff, ascending_map_filter _ _⟩,
    fun _ h hids => ofList_congr h hids⟩

/-- Children that come before their parent, and the other way round with one of them twice. -/
theorem ofList_links_scattered :
    let commits : List (Commit UInt64) :=
      [⟨3, .single 2 [], 3, 0, none⟩, ⟨4, .single 2 [], 4, 0, none⟩, ⟨2, .single 1 [], 2, 0, none⟩]
    let commits' : List (Commit UInt64) :=
      [⟨2, .single 1 [], 2, 0, none⟩, ⟨4, .single 2 [], 4, 0, none⟩, ⟨3, .single 2 [], 3, 0, none⟩,
        ⟨4, .single 2 [], 4, 0, none⟩]
    (∀ c, c ∈ commits' ↔ c ∈ commits) ∧
      (∀ c ∈ commits, ∀ d ∈ commits, c.id = d.id → c = d) ∧
      ofList commits' = ofList commits := by
  intro commits commits'
  have hmem : ∀ c, c ∈ commits' ↔ c ∈ commits := by
    intro c
    simp only [commits, commits', List.mem_cons, List.not_mem_nil]
    tauto
  have hids : ∀ c ∈ commits, ∀ d ∈ commits, c.id = d.id → c = d := by decide
  exact ⟨hmem, hids, (ofList_links commits).2.2.2.2 commits' hmem hids⟩

end Confluence.Graph
