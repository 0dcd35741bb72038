import Confluence.History.Search

/-!
# Checking out commits

The document of a commit is rebuilt from the nearest snapshot among the commit and its ancestors
and the operations that lead from there.
-/

namespace Confluence.Checkout

open Program

variable {κ : Type} [CommitId κ]

/-- The squashed operations that build a commit's document from nothing. -/
def checkoutAt (id : κ) : Program κ (List Operation) := do
  let found ← Search.find (.single id) Accumulator.list Search.hasSnapshot
  return Operation.squash (found.value ++ found.path.diffs)

/-- Rebuilds a commit's document and stores it as the commit's snapshot. -/
def saveSnapshot (id : κ) : Program κ Unit := do
  storeSnapshot id (← checkoutAt id)

end Confluence.Checkout
