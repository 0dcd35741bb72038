import Confluence.History.Window
import Confluence.Proofs.History.Graph
import Confluence.Proofs.Repository.Ensures
import Mathlib.Data.Set.Card

/-!
# Windows of a history

The walk of a window meets every commit once, as a head or as a parent of another one, and loads
it with its stored content. Without a limit the window holds exactly the heads and their ancestors,
with a limit as many of them as it allows. Levels have no part in this: it is enough that all
parents are stored.
-/

namespace Confluence

open History Program

variable {κ : Type} [CommitId κ] {h : History κ} {heads : OrdSet κ}

/-! ## The history of some heads -/

def History.below (h : History κ) (heads : OrdSet κ) : Set κ :=
  {id | ∃ head ∈ heads, h.Ancestor id head}

theorem History.Closed.below_subset_keys (hh : h.Closed)
    (hheads : ∀ x ∈ heads, ∃ c, h.get? x = some c) :
    h.below heads ⊆ (h.keys.toFinset : Set κ) := by
  intro x hx
  rcases hx with ⟨head, hhead, ha⟩
  rcases hheads head hhead with ⟨c, hc⟩
  simpa using OrdMap.mem_keys.2 (hh.exists_of_ancestor ha hc)

theorem History.Closed.ncard_below_le (hh : h.Closed)
    (hheads : ∀ x ∈ heads, ∃ c, h.get? x = some c) : (h.below heads).ncard ≤ h.size := by
  have hle := Set.ncard_le_ncard (hh.below_subset_keys hheads) (Finset.finite_toSet _)
  rwa [Set.ncard_coe_finset, List.toFinset_card_of_nodup (OrdMap.nodup_keys h),
    OrdMap.length_keys] at hle

namespace Graph

def Shows (g : Graph κ) (h : History κ) (heads : OrdSet κ) : Prop :=
  ∀ id c, g.held id = some c ↔ h.get? id = some c ∧ ∃ head ∈ heads, h.Ancestor id head

namespace Shows

variable {g : Graph κ} {a head : κ}

theorem isParent_iff (hg : g.Shows h heads) (hhead : head ∈ heads) {p c : κ}
    (hc : h.Ancestor c head) : g.IsParent p c ↔ h.IsParent p c := by
  constructor
  · intro hp
    rcases hp with ⟨commit, hheld, hp⟩
    exact (History.isParent_iff ((hg c commit).1 hheld).1).2 hp
  · intro hp
    rcases hp with ⟨commit, edge, hstored, hedge⟩
    exact ⟨commit, (hg c commit).2 ⟨hstored, head, hhead, hc⟩, OrdMap.mem_keys.2 ⟨edge, hedge⟩⟩

theorem transGen_of_proper (hg : g.Shows h heads) (hhead : head ∈ heads)
    (ha : h.ProperAncestor a head) : Relation.TransGen g.IsParent a head := by
  induction ha using Relation.TransGen.head_induction_on with
  | single hp => exact .single ((hg.isParent_iff hhead (.refl head)).2 hp)
  | head hp ha ih => exact .head ((hg.isParent_iff hhead (ProperAncestor.ancestor ha)).2 hp) ih

theorem level_lt (hg : g.Shows h heads) (hh : h.Graded) {id p : κ} {c q : Commit κ}
    (hc : g.held id = some c) (hp : p ∈ c.parentIds) (hq : g.held p = some q) :
    q.level < c.level := by
  have hstored := ((hg id c).1 hc).1
  exact hh.parent_level ((History.isParent_iff hstored).2 hp) ((hg p q).1 hq).1 hstored

end Shows

end Graph

/-! ## The walk -/

namespace Window

/-- What is loaded under a limit: as many of the heads and their ancestors as it allows, as they are
stored, and beside heads only parents of others that are loaded. -/
structure Loaded (h : History κ) (heads : OrdSet κ) (limit : Option Nat) (g : Graph κ) : Prop where
  stored : ∀ id c, g.held id = some c → h.get? id = some c ∧ id ∈ h.below heads
  connected : ∀ id, g.contains id = true → id ∈ heads ∨ ∃ c, c ≠ id ∧ g.IsParent id c
  shows : limit = none → g.Shows h heads
  size : ∀ n, limit = some n → g.size = min n (h.below heads).ncard

structure Walking (h : History κ) (heads : OrdSet κ) (visited queue : List κ) (seen : OrdSet κ)
    (g : Graph κ) : Prop where
  nodup : (visited ++ queue).Nodup
  met : ∀ x, x ∈ visited ++ queue ↔ x ∈ seen
  above : ∀ x ∈ heads, x ∈ seen
  below : ∀ x ∈ seen, ∃ head ∈ heads, h.Ancestor x head
  met_from : ∀ x ∈ seen, x ∈ heads ∨ ∃ c ∈ visited, c ≠ x ∧ h.IsParent x c
  closed : ∀ x ∈ visited, ∀ p, h.IsParent p x → p ∈ seen
  held : ∀ x, g.held x = if x ∈ visited then h.get? x else none

namespace Walking

variable {visited queue : List κ} {seen : OrdSet κ} {g : Graph κ} {id : κ}

theorem start (h : History κ) (heads : OrdSet κ) :
    Walking h heads [] heads.toList heads .empty where
  nodup := heads.nodup_toList
  met := fun x => by simp [OrdSet.mem_def]
  above := fun _ hx => hx
  below := fun x hx => ⟨x, hx, .refl x⟩
  met_from := fun _ hx => .inl hx
  closed := fun x hx => absurd hx List.not_mem_nil
  held := fun x => by simp [Graph.held_empty]

theorem exists_of_mem (hw : Walking h heads visited queue seen g) (hh : h.Closed)
    (hheads : ∀ x ∈ heads, ∃ c, h.get? x = some c) : ∀ x ∈ seen, ∃ c, h.get? x = some c := by
  intro x hx
  rcases hw.below x hx with ⟨head, hhead, ha⟩
  rcases hheads head hhead with ⟨c, hc⟩
  exact hh.exists_of_ancestor ha hc

theorem visit (hw : Walking h heads visited (id :: queue) seen g) (hh : h.Closed) {c : Commit κ}
    (hc : h.get? id = some c) :
    Walking h heads (visited ++ [id]) (queue ++ c.parentIds.filter fun p => !seen.contains p)
      (seen.insertMany (c.parentIds.filter fun p => !seen.contains p)) (g.insert c) := by
  have hfresh {x : κ} : (x ∈ c.parentIds.filter fun p => !seen.contains p) ↔
      x ∈ c.parentIds ∧ x ∉ seen := by
    rw [List.mem_filter, ← OrdSet.contains_iff_mem]
    simp
  have hid : id ∈ seen := (hw.met id).1 (by simp)
  have happend : (visited ++ [id]) ++ (queue ++ c.parentIds.filter fun p => !seen.contains p) =
      (visited ++ id :: queue) ++ c.parentIds.filter fun p => !seen.contains p := by
    simp
  constructor
  · rw [happend]
    have hnodup : c.parentIds.Nodup := OrdMap.nodup_keys c.parents
    apply List.Nodup.append hw.nodup (hnodup.filter _)
    intro x hx hnew
    exact (hfresh.1 hnew).2 ((hw.met x).1 hx)
  · intro x
    rw [happend, List.mem_append, hw.met, OrdSet.mem_insertMany]
  · exact fun x hx => OrdSet.mem_insertMany.2 (.inl (hw.above x hx))
  · intro x hx
    rcases OrdSet.mem_insertMany.1 hx with hx | hx
    · exact hw.below x hx
    · rcases hw.below id hid with ⟨head, hhead, ha⟩
      have hparent : h.IsParent x id := (isParent_iff hc).2 (hfresh.1 hx).1
      exact ⟨head, hhead, hparent.ancestor.trans ha⟩
  · intro x hx
    rcases OrdSet.mem_insertMany.1 hx with hx | hx
    · rcases hw.met_from x hx with hhead | ⟨child, hchild, hne, hparent⟩
      · exact .inl hhead
      · exact .inr ⟨child, List.mem_append_left [id] hchild, hne, hparent⟩
    · rcases hfresh.1 hx with ⟨hparent, hunseen⟩
      have hne : id ≠ x := by
        intro heq
        exact hunseen (heq ▸ hid)
      exact .inr ⟨id, by simp, hne, (isParent_iff hc).2 hparent⟩
  · intro x hx p hp
    rw [OrdSet.mem_insertMany]
    rcases List.mem_append.1 hx with hx | hx
    · exact .inl (hw.closed x hx p hp)
    · rw [List.mem_singleton.1 hx] at hp
      by_cases hseen : p ∈ seen
      · exact .inl hseen
      · exact .inr (hfresh.2 ⟨(isParent_iff hc).1 hp, hseen⟩)
  · intro x
    have hnew : id ∉ visited := by
      intro hv
      exact (List.disjoint_of_nodup_append hw.nodup) hv List.mem_cons_self
    rw [Graph.held_insert, hw.held, hh.filed hc]
    by_cases hx : x = id
    · subst hx
      simp [hnew, hc]
    · simp [hx]

/-- A walk with an empty queue has visited the heads and all their ancestors. -/
theorem mem_visited_iff (hw : Walking h heads visited [] seen g) {x : κ} :
    x ∈ visited ↔ x ∈ h.below heads := by
  have hmet : ∀ x, x ∈ visited ↔ x ∈ seen := by
    intro x
    rw [← hw.met, List.append_nil]
  rw [hmet]
  constructor
  · exact hw.below x
  · intro hx
    rcases hx with ⟨head, hhead, ha⟩
    induction ha using Relation.ReflTransGen.head_induction_on with
    | refl => exact hw.above head hhead
    | head hp _ ih => exact hw.closed _ ((hmet _).2 ih) _ hp

theorem shows (hw : Walking h heads visited [] seen g) : g.Shows h heads := by
  intro x c
  have hvisited : (∃ head ∈ heads, h.Ancestor x head) ↔ x ∈ visited := hw.mem_visited_iff.symm
  rw [hw.held, hvisited]
  by_cases hx : x ∈ visited
  · simp [hx]
  · simp [hx]

theorem contains_iff (hw : Walking h heads visited queue seen g)
    (hstored : ∀ x ∈ seen, ∃ c, h.get? x = some c) {x : κ} :
    g.contains x = true ↔ x ∈ visited := by
  rw [Graph.contains_iff_held, hw.held]
  by_cases hx : x ∈ visited
  · simp [hx, hstored x ((hw.met x).1 (List.mem_append_left queue hx))]
  · simp [hx]

theorem size_eq (hw : Walking h heads visited queue seen g)
    (hstored : ∀ x ∈ seen, ∃ c, h.get? x = some c) : g.size = visited.length := by
  have hkeys (x : κ) : x ∈ g.nodes.keys ↔ x ∈ visited := by
    rw [OrdMap.mem_keys, ← OrdMap.contains_iff]
    exact hw.contains_iff hstored
  have hnodup : visited.Nodup := hw.nodup.of_append_left
  rw [Graph.size, ← OrdMap.length_keys]
  exact ((List.perm_ext_iff_of_nodup (OrdMap.nodup_keys _) hnodup).2 hkeys).length_eq

/-- Every loaded commit is a head or a parent of another one that is loaded. -/
theorem connected (hw : Walking h heads visited queue seen g) {x : κ}
    (hx : x ∈ visited) : x ∈ heads ∨ ∃ c, c ≠ x ∧ g.IsParent x c := by
  rcases hw.met_from x ((hw.met x).1 (List.mem_append_left queue hx)) with hhead | hmet
  · exact .inl hhead
  · rcases hmet with ⟨c, hc, hne, commit, edge, hget, hedge⟩
    refine .inr ⟨c, hne, commit, ?_, OrdMap.mem_keys.2 ⟨edge, hedge⟩⟩
    rw [hw.held, if_pos hc, hget]

theorem ncard_visited (hw : Walking h heads visited queue seen g) :
    {x | x ∈ visited}.ncard = visited.length := by
  rw [← List.coe_toFinset, Set.ncard_coe_finset,
    List.toFinset_card_of_nodup hw.nodup.of_append_left]

theorem mem_below (hw : Walking h heads visited queue seen g) {x : κ} (hx : x ∈ visited) :
    x ∈ h.below heads := hw.below x ((hw.met x).1 (List.mem_append_left queue hx))

/-- A walk that ends with an empty queue, or because it may visit no more commits, has loaded what
the limit allows. -/
theorem loaded (hw : Walking h heads visited queue seen g) (hh : h.Closed)
    (hheads : ∀ x ∈ heads, ∃ c, h.get? x = some c) {limit : Option Nat} {all total : Nat}
    (hall : h.size < all) (htotal : total = match limit with | none => all | some n => min n all)
    (hle : visited.length ≤ total) (hend : queue = [] ∨ visited.length = total) :
    Loaded h heads limit g := by
  have hstored := hw.exists_of_mem hh hheads
  have hcount : (h.below heads).ncard ≤ h.size := hh.ncard_below_le hheads
  have hvisited : visited.length ≤ (h.below heads).ncard := by
    rw [← hw.ncard_visited]
    exact Set.ncard_le_ncard (fun x => hw.mem_below)
      ((Finset.finite_toSet _).subset (hh.below_subset_keys hheads))
  constructor
  · intro id c hc
    rw [hw.held] at hc
    split at hc
    next hid => exact ⟨hc, hw.mem_below hid⟩
    next => cases hc
  · intro id hid
    exact hw.connected ((hw.contains_iff hstored).1 hid)
  · intro hlimit
    subst hlimit
    rcases hend with rfl | hend
    · exact hw.shows
    · simp only at htotal
      omega
  · intro n hlimit
    subst hlimit
    simp only at htotal
    rw [hw.size_eq hstored]
    rcases hend with rfl | hend
    · have hbelow : h.below heads = {x | x ∈ visited} := by
        ext x
        exact hw.mem_visited_iff.symm
      rw [hbelow, hw.ncard_visited]
      omega
    · omega

end Walking

section

variable {v : View κ} {P : Graph κ → Prop} {E : Fault → Prop}

/-- A walk ends with an empty queue or when it has visited as many commits as it may. -/
theorem reads_walk (hh : v.commits.Closed) (hheads : ∀ x ∈ heads, ∃ c, v.commits.get? x = some c)
    {visited queue : List κ} {seen : OrdSet κ} {g : Graph κ} {fuel total : Nat}
    (hw : Walking v.commits heads visited queue seen g) (hfuel : fuel + visited.length = total)
    (hP : ∀ visited queue seen g, Walking v.commits heads visited queue seen g →
      visited.length ≤ total → queue = [] ∨ visited.length = total → P g)
    (hE : ∀ e, v.fails e → E e) : (walk fuel queue seen g).Reads v P E := by
  induction fuel generalizing visited queue seen g with
  | zero =>
      apply reads_pure
      exact hP visited queue seen g hw (by omega) (.inr (by omega))
  | succ fuel ih =>
      cases queue with
      | nil =>
          apply reads_pure
          exact hP visited [] seen g hw (by omega) (.inl rfl)
      | cons id queue =>
          have hid : id ∈ seen := (hw.met id).1 (by simp)
          rcases hw.exists_of_mem hh hheads id hid with ⟨c, hc⟩
          apply Reads.bind
          apply reads_loadCommit hc _ hE
          apply ih (hw.visit hh hc)
          rw [List.length_append, List.length_singleton]
          omega

theorem reads_load {limit : Option Nat} (hh : v.commits.Closed)
    (hheads : ∀ x ∈ heads, ∃ c, v.commits.get? x = some c)
    (hP : ∀ g : Graph κ, Loaded v.commits heads limit g → P g)
    (hE : ∀ e, v.fails e → E e) : (load heads limit).Reads v P E := by
  apply Reads.bind
  apply reads_countCommits _ hE
  intro count hcount
  apply reads_walk hh hheads (.start v.commits heads) rfl _ hE
  intro visited queue seen g hw hle hend
  have hall : v.commits.size < count + 1 := by omega
  exact hP g (hw.loaded hh hheads hall rfl hle hend)

end

end Window

end Confluence
