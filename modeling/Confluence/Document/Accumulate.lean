import Confluence.Document.Algebra

/-!
# Accumulated edges

A walk back through the history meets the edges of a path from its end to its start. An
accumulator says what it keeps of them.
-/

namespace Confluence

/-- What a walk keeps of the edges it has followed; `extend` adds an edge in front of those met
before it. -/
structure Accumulator (α : Type) where
  start : α
  extend : α → List Operation → α

namespace Accumulator

/-- Keeps every operation, in the order of the path. -/
def list : Accumulator (List Operation) := ⟨[], fun acc edge => edge ++ acc⟩

/-- Keeps at most one operation, squashed at every edge. -/
def squashed : Accumulator (List Operation) :=
  ⟨[], fun acc edge => Operation.squash (edge ++ acc)⟩

/-- Keeps nothing. -/
def discard : Accumulator Unit := ⟨(), fun _ _ => ()⟩

/-- What is kept after each of a list of edges, with the start in front. -/
def trail {α : Type} (a : Accumulator α) (edges : List (List Operation)) : List α :=
  a.start :: go a.start edges
where
  /-- The values after the first one. -/
  go (acc : α) : List (List Operation) → List α
    | [] => []
    | e :: l => a.extend acc e :: go (a.extend acc e) l

end Accumulator

end Confluence
