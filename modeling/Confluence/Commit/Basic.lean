import Confluence.Document.Operation
import Confluence.Data.OrdSet
import Confluence.Digest.Basic
import Confluence.Text.Quoted

/-!
# Commits

A commit joins its parents to one document: an edge from each parent holds the operations that
lead from the parent's document to its own. Its level is above that of every parent, and its epoch
separates a history from those that a later root has replaced.
-/

namespace Confluence

open Std

/-- Ids of commits: totally ordered values with a text of their own and a short form for lists in
messages. -/
class CommitId (κ : Type) extends Ord κ, TransCmp (compare : κ → κ → Ordering),
    LawfulEqCmp (compare : κ → κ → Ordering) where
  decEq : DecidableEq κ
  text : κ → String
  brief : κ → String

attribute [reducible, instance] CommitId.decEq

instance : CommitId UInt64 where
  decEq := inferInstance
  text n := toString n.toNat
  brief n := toString n.toNat

instance : CommitId Digest where
  decEq := inferInstance
  text := Digest.toText
  brief := Digest.brief

/-- A set of ids as messages show it. -/
def OrdSet.inMessage {κ : Type} [CommitId κ] (s : OrdSet κ) : String :=
  Text.braced (s.toList.map CommitId.brief)

/-- The edges into a commit: by parent, the operations that lead from it. -/
abbrev Edges (κ : Type) [CommitId κ] := OrdMap κ (List Operation)

/-- A state of the document with the edges that lead to it. In use levels and epochs are numbers of
64 bits; here none of them is too great, and whatever adds to a level says how far (`maxLevel`). -/
structure Commit (κ : Type) [CommitId κ] where
  id : κ
  parents : Edges κ
  level : Nat
  epoch : Nat
  timestamp : Option Nat := none
deriving DecidableEq

namespace Commit

variable {κ : Type} [CommitId κ]

/-- The greatest level that there is in use. -/
def maxLevel : Nat := UInt64.size - 1

def parentIds (c : Commit κ) : List κ := c.parents.keys

def isRoot (c : Commit κ) : Bool := c.parents.isEmpty

def isMerge (c : Commit κ) : Bool := 1 < c.parents.size

/-- Whether two commits agree in all but their timestamps. -/
def sameContent (c d : Commit κ) : Bool :=
  c.id = d.id && c.level = d.level && c.epoch = d.epoch && c.parents = d.parents

theorem sameContent_iff {c d : Commit κ} :
    c.sameContent d = true ↔ { c with timestamp := none } = { d with timestamp := none } := by
  cases c
  cases d
  simp [sameContent]
  grind

end Commit

/-- What a node learns about a head: its id and level, and the operations that lead to it. -/
structure Fetched (κ : Type) where
  commit : κ
  level : Nat
  diffs : List Operation
deriving DecidableEq

end Confluence
