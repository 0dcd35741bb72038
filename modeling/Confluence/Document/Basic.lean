import Confluence.Document.Operation

/-!
# Documents

A document gives values to keys. Applying an operation looks only at the values it leaves behind,
never at the values it expects.
-/

namespace Confluence

/-- Values by key. -/
structure Document where
  entries : OrdMap String String
deriving DecidableEq, Inhabited

namespace Document

def empty : Document := ⟨∅⟩

instance : EmptyCollection Document := ⟨empty⟩

def get? (d : Document) (k : String) : Option String := d.entries.get? k

/-- Gives a key a value, or takes it away. -/
def put (d : Document) (k : String) : Option String → Document
  | none => ⟨d.entries.erase k⟩
  | some v => ⟨d.entries.insert k v⟩

def apply (d : Document) (o : Operation) : Document :=
  o.changes.toList.foldl (fun d e => d.put e.1 e.2.next) d

/-- The document after a list of operations, from left to right. -/
def applyAll (d : Document) (l : List Operation) : Document := l.foldl apply d

/-- The operation that moves a key from its present value to another. -/
def edit (d : Document) (k : String) (next : Option String) : Operation :=
  .single k ⟨d.get? k, next⟩

/-- The operation that makes several edits, each from the present value of its key. -/
def editAll (d : Document) (edits : List (String × Option String)) : Operation :=
  ⟨.ofList (edits.map fun e => (e.1, ⟨d.get? e.1, e.2⟩))⟩

def size (d : Document) : Nat := d.entries.size

theorem get?_put_self (d : Document) (k : String) (v : Option String) :
    (d.put k v).get? k = v := by
  cases v with
  | none => exact OrdMap.get?_erase_self _ _
  | some v => exact OrdMap.get?_insert_self _ _ _

theorem get?_put_of_ne (d : Document) {k j : String} (v : Option String) (h : j ≠ k) :
    (d.put k v).get? j = d.get? j := by
  cases v with
  | none => exact OrdMap.get?_erase_of_ne _ h
  | some v => exact OrdMap.get?_insert_of_ne _ v h

/-- Two documents with the same value under every key are the same. -/
theorem ext {d e : Document} (h : ∀ k, d.get? k = e.get? k) : d = e := by
  cases d
  cases e
  exact congrArg _ (OrdMap.ext h)

end Document

end Confluence
