import Confluence.Data.OrdMap

/-!
# Operations on a document

A change of one key records the value it expects to find and the value it leaves behind; an absent
value is `none`. An operation is a batch of changes under different keys.
-/

namespace Confluence

/-- What happens to one key: the value before and the value after, `none` where the key is
absent. -/
structure Change where
  prev : Option String
  next : Option String
deriving DecidableEq, Inhabited

namespace Change

def isNoop (c : Change) : Bool := c.prev == c.next

def inverse (c : Change) : Change := ⟨c.next, c.prev⟩

@[simp] theorem inverse_inverse (c : Change) : c.inverse.inverse = c := rfl

end Change

/-- A batch of changes that take effect together. -/
structure Operation where
  changes : OrdMap String Change
deriving DecidableEq, Inhabited

namespace Operation

def single (k : String) (c : Change) : Operation := ⟨.single k c⟩

/-- Whether no key ends on another value than it had. -/
def isNoop (o : Operation) : Bool := o.changes.values.all Change.isNoop

def inverse (o : Operation) : Operation := ⟨o.changes.map Change.inverse⟩

theorem inverse_inverse (o : Operation) : o.inverse.inverse = o := by
  obtain ⟨m⟩ := o
  refine congrArg mk (OrdMap.ext fun k => ?_)
  simp only [inverse, OrdMap.get?_map]
  cases m.get? k <;> rfl

end Operation

end Confluence
