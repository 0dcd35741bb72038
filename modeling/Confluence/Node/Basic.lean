import Confluence.History.Merge

/-!
# A node

A client of the repository that edits the document. It builds commits, pushes them and merges the
heads on the way, and learns from the heads what others have done.
-/

namespace Confluence.Node

open Program

variable {κ : Type} [CommitId κ]

/-- Builds a commit on a stored parent, in the epoch of the parent and above it. -/
def createCommit (parent : κ) (diffs : List Operation) (level : Nat) : Program κ (Commit κ) := do
  let p ← loadCommit parent
  if level ≤ p.level then
    fail (.invalidArgument
      ("level " ++ toString level ++ " must exceed parent " ++ CommitId.text parent ++ " level " ++
        toString p.level))
  else create p.epoch parent diffs level

/-- The operations that lead from a commit to the head from which the commit is found first. -/
def fetchFrom (heads : OrdSet κ) (current : κ) : Program κ (Fetched κ) := do
  let found ← Search.find heads Accumulator.squashed (Search.isCommit current)
  return ⟨found.path.child, found.path.childLevel, Operation.squash found.path.diffs⟩

/-- The operations that lead from a commit to an active head. -/
def fetch (current : κ) : Program κ (Fetched κ) := do
  fetchFrom (← activeHeads) current

/-- Stores a commit, merges it with the active heads, and puts the merge in their place. The answer
leads from the commit to the merge. -/
def push (c : Commit κ) : Program κ (Fetched κ) := do
  pushCommit c
  let heads ← activeHeads
  let tips ← Tips.withoutAncestors (heads.insert c.id)
  let merged ← Merge.merge tips
  updateHeads (.single merged) (heads.erase merged)
  fetchFrom (.single merged) c.id

/-- The document of an active head: from the nearest snapshot to the head below which it was found,
and on from there to a head that is active by then. -/
def checkout : Program κ (Fetched κ) := do
  let heads ← activeHeads
  let found ← Search.find heads Accumulator.list Search.hasSnapshot
  let fetched ← fetch found.path.child
  return { fetched with
    diffs := Operation.squash (found.value ++ found.path.diffs ++ fetched.diffs) }

end Confluence.Node
