import Confluence.Document.Operation
import Confluence.Json.Reader

/-!
# Operations as JSON

An operation is an object from keys to changes, a change an object with the fields `prev` and
`next`. Writing gives both fields and ascending keys. Reading also accepts a change as an array of
the two values, fields of any other name, a missing field for an absent value, and a repeated key,
whose last change counts.
-/

namespace Confluence

namespace Change

def toJson (c : Change) : Json :=
  .obj [("prev", .ofOption c.prev), ("next", .ofOption c.next)]

/-- The values that have been read so far, each at most once. -/
structure Partial where
  prev : Option (Option String)
  next : Option (Option String)

def readField (p : Partial) (name : String) (cs : List Char) : Option (Partial × List Char) :=
  if name = "prev" then
    match p.prev with
    | some _ => none
    | none => (Json.readOptional cs).map fun r => (⟨some r.1, p.next⟩, r.2)
  else if name = "next" then
    match p.next with
    | some _ => none
    | none => (Json.readOptional cs).map fun r => (⟨p.prev, some r.1⟩, r.2)
  else (Json.skipValue cs).map fun cs => (p, cs)

/-- Reads a change written as an array. -/
def readPair (cs : List Char) : Option (Change × List Char) := do
  let (prev, cs) ← Json.readOptional cs
  let cs ← Json.expect [','] (Json.skipBlank cs)
  let (next, cs) ← Json.readOptional cs
  let cs ← Json.expect [']'] (Json.skipBlank cs)
  return (⟨prev, next⟩, cs)

def read (cs : List Char) : Option (Change × List Char) :=
  match Json.skipBlank cs with
  | '[' :: cs => readPair cs
  | cs => (Json.readObject readField ⟨none, none⟩ cs).map fun r =>
      (⟨r.1.prev.join, r.1.next.join⟩, r.2)

end Change

namespace Operation

def toJson (o : Operation) : Json :=
  .obj (o.changes.toList.map fun e => (e.1, e.2.toJson))

def render (o : Operation) : List Char := o.toJson.compact

/-- Reads an operation and nothing after it but blanks. -/
def parse? (cs : List Char) : Option Operation :=
  match Json.readObject
      (fun m k cs => (Change.read cs).map fun r => (OrdMap.insert m k r.1, r.2)) ∅ cs with
  | some (m, cs) => if (Json.skipBlank cs).isEmpty then some ⟨m⟩ else none
  | none => none

end Operation

end Confluence
