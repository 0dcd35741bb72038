import Confluence.History.Graph
import Confluence.Repository.Calls

/-!
# Loading part of a history

A window is the graph of the commits that are nearest to some heads, met level by level of
parenthood, and of no more than a given number.
-/

namespace Confluence.Window

open Program

variable {κ : Type} [CommitId κ]

/-- Loads at most `fuel` commits, in the order in which they were met. -/
def walk : Nat → List κ → OrdSet κ → Graph κ → Program κ (Graph κ)
  | 0, _, _, g => return g
  | _, [], _, g => return g
  | fuel + 1, id :: queue, seen, g => do
    let c ← loadCommit id
    let fresh := c.parentIds.filter fun p => !seen.contains p
    walk fuel (queue ++ fresh) (seen.insertMany fresh) (g.insert c)

/-- Loads the heads and their ancestors, at most `limit` of them if a limit is given. Without one
the walk ends when it has met all stored commits: the next would be missing. -/
def load (heads : OrdSet κ) (limit : Option Nat) : Program κ (Graph κ) := do
  let all := (← countCommits) + 1
  walk (match limit with | none => all | some n => min n all) heads.toList heads .empty

end Confluence.Window
