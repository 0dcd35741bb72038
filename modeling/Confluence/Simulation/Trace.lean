import Confluence.Json.Basic
import Confluence.Text.Quoted

/-!
# Traces

What happened in a simulation, event by event, with two written forms: JSON, and one line of text.
-/

namespace Confluence

/-- What a replica did or met with. -/
inductive EventKind where
  | edit (key : String) (value : Option String)
  | commit (commit : UInt64)
  /-- A push that ended at a head, with the number of operations on the way there. -/
  | push (commit head : UInt64) (diffs : Nat)
  | fetch (start head : UInt64) (diffs : Nat)
  /-- A failure that may pass. -/
  | fault (action code : String)
  /-- A failure that should not happen. -/
  | error (action message : String)
  /-- All replicas have caught up. -/
  | settled (head : UInt64)
deriving DecidableEq

/-- An event with the step and the replica it belongs to. -/
structure Event where
  step : Nat
  replica : Nat
  kind : EventKind
deriving DecidableEq

namespace EventKind

def idJson (n : UInt64) : Json := .nat n.toNat

def toJson : EventKind → Json
  | edit key value =>
    .obj [("type", .str "edit"), ("key", .str key), ("value", .ofOption value)]
  | commit c => .obj [("type", .str "commit"), ("commit", idJson c)]
  | push c head n =>
    .obj [("type", .str "push"), ("commit", idJson c), ("head", idJson head), ("diffs", .nat n)]
  | fetch start head n =>
    .obj [("type", .str "fetch"), ("from", idJson start), ("to", idJson head), ("diffs", .nat n)]
  | fault action code =>
    .obj [("type", .str "fault"), ("action", .str action), ("code", .str code)]
  | error action message =>
    .obj [("type", .str "error"), ("action", .str action), ("message", .str message)]
  | settled head => .obj [("type", .str "settled"), ("head", idJson head)]

/-- A name with its fields in braces. -/
def record (name : String) (fields : List (String × String)) : String :=
  name ++ " \x7b " ++ ", ".intercalate (fields.map fun f => f.1 ++ ": " ++ f.2) ++ " \x7d"

def idText (n : UInt64) : String := toString n.toNat

def toText : EventKind → String
  | edit key value =>
    record "Edit" [("key", Text.quote key), ("value", Text.quoteOption value)]
  | commit c => record "Commit" [("commit", idText c)]
  | push c head n =>
    record "Push" [("commit", idText c), ("head", idText head), ("diffs", toString n)]
  | fetch start head n =>
    record "Fetch" [("from", idText start), ("to", idText head), ("diffs", toString n)]
  | fault action code =>
    record "Fault" [("action", Text.quote action), ("code", Text.quote code)]
  | error action message =>
    record "Error" [("action", Text.quote action), ("message", Text.quote message)]
  | settled head => record "Settled" [("head", idText head)]

end EventKind

namespace Event

def toJson (e : Event) : Json :=
  .obj [("step", .nat e.step), ("replica", .nat e.replica), ("kind", e.kind.toJson)]

/-- A number in at least four columns, filled up on the right. -/
def column (n : Nat) : String :=
  let s := toString n
  s ++ String.ofList (List.replicate (4 - s.length) ' ')

def toText (e : Event) : String :=
  "#" ++ column e.step ++ " r" ++ toString e.replica ++ " " ++ e.kind.toText

end Event

end Confluence
