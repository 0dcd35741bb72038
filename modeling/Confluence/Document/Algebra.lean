import Confluence.Document.Basic
import Confluence.Fault
import Confluence.Text.Quoted

/-!
# The algebra of operation lists

A list of operations has a net change under every key it touches: the value before is that of the
first operation on the key, the value after that of the last. `squash` keeps the net changes that
are no no-ops, `invert` undoes a list, and `transform` moves two lists that start from one document
past each other.

Where both sides leave a key on different values the greater value wins, and an absent value is
below every other. The rule looks at the two values alone, never at the side they came from, so
both sides resolve the conflict alike.
-/

namespace Confluence

open Text

namespace Operation

/-- Adds a later change of a key to the net changes. -/
def absorb (net : OrdMap String Change) (e : String × Change) : OrdMap String Change :=
  match net.get? e.1 with
  | none => net.insert e.1 e.2
  | some c => net.insert e.1 ⟨c.prev, e.2.next⟩

/-- The net change of every key that a list touches, no-ops included. -/
def net (l : List Operation) : OrdMap String Change :=
  (l.flatMap fun o => o.changes.toList).foldl absorb ∅

/-- The net changes that are no no-ops. -/
def effect (l : List Operation) : OrdMap String Change :=
  (net l).filter fun _ c => !c.isNoop

/-- The shortest list with the given changes: no-ops are dropped, and without changes there is no
operation. -/
def listOf (m : OrdMap String Change) : List Operation :=
  let m := m.filter fun _ c => !c.isNoop
  if m.isEmpty then [] else [⟨m⟩]

/-- At most one operation with the same effect as the list. -/
def squash (l : List Operation) : List Operation := listOf (net l)

/-- The operations that lead back, the last one first. -/
def invert (l : List Operation) : List Operation := l.reverse.map inverse

def isNoopList (l : List Operation) : Bool := l.all isNoop

/-- Whether the first value wins over the second: it is greater, and no value is below every
value. -/
def prevails : Option String → Option String → Bool
  | none, _ => false
  | some _, none => true
  | some a, some b => compare b a == .lt

end Operation

/-- Two operation lists moved past each other: `left` applies after the right list, `right` after
the left list. -/
structure Transformation where
  left : List Operation
  right : List Operation
  /-- Whether both sides had changed a key to different values. -/
  conflict : Bool
deriving DecidableEq, Inhabited

namespace Transformation

/-- Nothing left to do on either side. -/
def empty : Transformation := ⟨[], [], false⟩

def swapped (t : Transformation) : Transformation := ⟨t.right, t.left, t.conflict⟩

@[simp] theorem swapped_swapped (t : Transformation) : t.swapped.swapped = t := rfl

end Transformation

/-- What is known while the changes of the left side are carried past those of the right side, one
after the other. -/
structure Rebasing where
  /-- The changes of the right side whose keys have not come up. -/
  unmet : OrdMap String Change
  afterRight : OrdMap String Change := ∅
  afterLeft : OrdMap String Change := ∅
  conflict : Bool := false

namespace Operation

/-- The fault of a key that both sides change, but not from one value. -/
def disagreement (key : String) (left right : Change) : Fault :=
  .transformConflict
    ("key " ++ quote key ++ ": left expects " ++ quoteOption left.prev ++ ", right expects " ++
      quoteOption right.prev)

/-- Carries the next change of the left side past the right side's change of its key, which is then
used up. If they end on different values, the one that gives way is not made at all. -/
def rebaseStep (s : Rebasing) (e : String × Change) : Except Fault Rebasing :=
  match s.unmet.get? e.1 with
  | none => .ok { s with afterRight := s.afterRight.insert e.1 e.2 }
  | some r =>
    let s := { s with unmet := s.unmet.erase e.1 }
    if e.2.prev ≠ r.prev then .error (disagreement e.1 e.2 r)
    else if e.2.next = r.next then .ok s
    else if prevails e.2.next r.next then
      .ok { s with
        conflict := true
        afterRight := s.afterRight.insert e.1 ⟨r.next, e.2.next⟩ }
    else
      .ok { s with
        conflict := true
        afterLeft := s.afterLeft.insert e.1 ⟨e.2.next, r.next⟩ }

/-- Moves two lists that start from one document past each other. The left side's changes are gone
through by ascending key, up to the first that the right side makes from another value; what is then
left of the right side is made after the left side as it is. -/
def transform (left right : List Operation) : Except Fault Transformation := do
  let s ← (effect left).toList.foldlM rebaseStep { unmet := effect right }
  return ⟨listOf s.afterRight, listOf (s.afterLeft.insertMany s.unmet.toList), s.conflict⟩

end Operation

end Confluence
