import Confluence.Digest.Blake3
import Confluence.Fault
import Confluence.Text.Hex
import Confluence.Text.Quoted

/-!
# Digests

A digest is 32 bytes, ordered by bytes and written as 64 hexadecimal digits in lower case. It is
read from digits of either case.
-/

namespace Confluence

open Std

structure Digest where
  bytes : Vector UInt8 32
deriving DecidableEq

namespace Digest

instance : Inhabited Digest := ⟨⟨.replicate 32 0⟩⟩

instance : Ord Digest := ⟨fun a b => compare a.bytes b.bytes⟩

instance : TransOrd Digest where
  eq_swap {a b} := by
    change compare a.bytes b.bytes = (compare b.bytes a.bytes).swap
    exact OrientedCmp.eq_swap
  isLE_trans {a b c} hab hbc := by
    change (compare a.bytes b.bytes).isLE at hab
    change (compare b.bytes c.bytes).isLE at hbc
    change (compare a.bytes c.bytes).isLE
    exact TransCmp.isLE_trans hab hbc

instance : LawfulEqOrd Digest where
  eq_of_compare {a b} h := by
    change compare a.bytes b.bytes = .eq at h
    cases a
    cases b
    exact congrArg mk (LawfulEqCmp.eq_of_compare h)

def ofBytes (l : List UInt8) : Digest := ⟨⟨(Blake3.hash l).toArray, Blake3.length_hash l⟩⟩

def ofText (s : String) : Digest := ofBytes s.toUTF8.data.toList

/-- The 64 digits of a digest. -/
def digits (d : Digest) : List Char := Hex.ofBytes d.bytes.toList

def toText (d : Digest) : String := String.ofList d.digits

/-- The short form in messages: the first twelve digits. -/
def brief (d : Digest) : String := "CommitHash(" ++ String.ofList (d.digits.take 12) ++ ")"

/-- Why a text is no digest. -/
inductive Defect where
  /-- The text has another number of bytes than 64. -/
  | length (bytes : Nat)
  /-- The first byte that is no hexadecimal digit. -/
  | byte (b : UInt8)

/-- The wording of a defect. A byte of a letter, digit or sign is shown as a character, any other
byte by its value. -/
def Defect.message : Defect → String
  | length n => "expected 64 hex bytes, received " ++ toString n
  | byte b =>
    if b.toNat < 0x80 then
      "invalid hex character: '" ++ String.ofList (shown (Char.ofNat b.toNat)) ++ "'"
    else "invalid hex character: 0x" ++ String.ofList (Hex.ofNat b.toNat)
where
  /-- A character between single quotes, of which only the single quote is escaped. -/
  shown (c : Char) : List Char :=
    match c with
    | '\'' => ['\\', '\'']
    | '"' => ['"']
    | c => Text.escapeChar c

/-- The value of a byte that is a hexadecimal digit. -/
def nibble? (b : UInt8) : Except Defect Nat :=
  if b.toNat < 0x80 then
    match Hex.value? (Char.ofNat b.toNat) with
    | some n => .ok n
    | none => .error (.byte b)
  else .error (.byte b)

/-- The bytes that pairs of digits write. -/
def readBytes : List UInt8 → Except Defect (List UInt8)
  | a :: b :: l => do
    let a ← nibble? a
    let b ← nibble? b
    return UInt8.ofNat (16 * a + b) :: (← readBytes l)
  | _ => .ok []

/-- Reads 64 digits; the length is looked at first, then the digits from the left. -/
def read (s : String) : Except Defect Digest := do
  let l := s.toUTF8.data.toList
  if l.length ≠ 64 then throw (.length l.length)
  let bytes ← readBytes l
  if h : bytes.toArray.size = 32 then return ⟨⟨bytes.toArray, h⟩⟩
  else throw (.length l.length)

/-- Reads a digest, or says what is wrong with the text. -/
def parse (s : String) : Except Fault Digest :=
  match read s with
  | .ok d => .ok d
  | .error e =>
    .error (.invalidArgument ("bad commit hash " ++ Text.quote s ++ ": " ++ e.message))

end Digest

end Confluence
