/-!
# Hexadecimal text

Digits are written in lower case and read in either case.
-/

namespace Confluence.Hex

def digit (n : Nat) : Char :=
  if n < 10 then Char.ofNat ('0'.toNat + n) else Char.ofNat ('a'.toNat + (n - 10))

/-- The value of a digit of either case. -/
def value? (c : Char) : Option Nat :=
  if '0' ≤ c ∧ c ≤ '9' then some (c.toNat - '0'.toNat)
  else if 'a' ≤ c ∧ c ≤ 'f' then some (c.toNat - 'a'.toNat + 10)
  else if 'A' ≤ c ∧ c ≤ 'F' then some (c.toNat - 'A'.toNat + 10)
  else none

def ofByte (b : UInt8) : List Char := [digit (b.toNat / 16), digit (b.toNat % 16)]

def ofBytes (l : List UInt8) : List Char := l.flatMap ofByte

/-- A number in as few digits as it needs. -/
def ofNat (n : Nat) : List Char := Nat.toDigits 16 n

theorem length_ofBytes (l : List UInt8) : (ofBytes l).length = 2 * l.length := by
  induction l with
  | nil => rfl
  | cons b l ih =>
    simp only [ofBytes, List.flatMap_cons, List.length_append, List.length_cons] at ih ⊢
    rw [ih]
    simp only [ofByte, List.length_cons, List.length_nil]
    omega

end Confluence.Hex
