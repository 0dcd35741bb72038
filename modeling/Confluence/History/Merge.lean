import Confluence.History.CommonAncestor
import Confluence.History.Tips

/-!
# Merging heads

The operations from the nearest common ancestor to each head are folded in the order of the heads'
ids: what has been merged so far is transformed against the next head, and every edge collected
before grows by what that head adds. The result depends only on the content of the history, so
whoever merges the same heads builds a commit with the same edges.
-/

namespace Confluence.Merge

open Program

variable {κ : Type} [CommitId κ]

/-- The heads folded so far: the operations from the ancestor to their common document, and the
edges that lead there from each of them. -/
structure State (κ : Type) [CommitId κ] where
  merged : List Operation
  edges : Edges κ

/-- Folds one more head, whose operations from the ancestor are given. -/
def State.add (s : State κ) (e : κ × List Operation) : Except Fault (State κ) := do
  let t ← Operation.transform s.merged e.2
  return {
    merged := Operation.squash (s.merged ++ t.right)
    edges := (s.edges.map (· ++ t.right)).insert e.1 t.left }

/-- The squashed edges of the merge commit from the operations that lead to each head. -/
def combine (paths : Reach κ) : Except Fault (Edges κ) :=
  match paths.toList with
  | [] => .ok ∅
  | (first, diffs) :: rest => do
    let s ← rest.foldlM State.add ⟨diffs, .single first []⟩
    return s.edges.map Operation.squash

/-- What merging heads comes to. -/
inductive Merged (κ : Type) [CommitId κ] where
  /-- There is one head, and nothing to merge. -/
  | existing (id : κ)
  /-- A commit that has not been stored yet. -/
  | created (c : Commit κ)

/-- Builds the commit that merges some heads, one level above the highest of them and in their
newest epoch. -/
def build (heads : OrdSet κ) : Program κ (Merged κ) :=
  match heads.toList with
  | [] => fail (.invalidArgument "cannot merge an empty head set")
  | [id] => return .existing id
  | ids => do
    let commits ← loadCommits ids
    let ancestor ← CommonAncestor.find heads commits
    let edges ← ofExcept (combine ancestor.paths)
    let level := commits.foldl (fun n c => max n c.level) 0
    return .created (← createFrom (newestEpoch commits) edges (level + 1))

/-- Merges heads and stores the commit; a single head is the merge of itself. -/
def merge (heads : OrdSet κ) : Program κ κ := do
  match ← build heads with
  | .existing id => return id
  | .created c =>
    pushCommit c
    return c.id

/-- Merges heads and gives the whole commit; a single head is loaded. -/
def mergeCommit (heads : OrdSet κ) : Program κ (Commit κ) := do
  match ← build heads with
  | .existing id => loadCommit id
  | .created c =>
    pushCommit c
    return c

/-- Merges the active heads and puts the merge in their place. The heads are changed by the last
request, so a fault leaves them as they were. -/
def mergeHeads : Program κ κ := do
  let heads ← activeHeads
  let tips ← Tips.withoutAncestors heads
  let merged ← merge tips
  updateHeads (.single merged) (heads.erase merged)
  return merged

end Confluence.Merge
