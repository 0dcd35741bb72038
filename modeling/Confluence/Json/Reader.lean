import Confluence.Json.Basic

/-!
# Reading JSON text

Readers take the characters that are left and return what they read with the characters after it.
`readString` decodes a string and accepts only escapes that name a character; `skipValue` passes
over a value of which nothing but its shape matters, so there a surrogate may stand alone.
-/

namespace Confluence.Json

/-- Drops blanks: space, tab and the two line ends. -/
def skipBlank (cs : List Char) : List Char :=
  cs.dropWhile fun c => c == ' ' || c == '\n' || c == '\t' || c == '\r'

def expect (text cs : List Char) : Option (List Char) :=
  if text.isPrefixOf cs then some (cs.drop text.length) else none

/-- The number that four hexadecimal digits write. -/
def unit? (a b c d : Char) : Option Nat := do
  let a ← Hex.value? a
  let b ← Hex.value? b
  let c ← Hex.value? c
  let d ← Hex.value? d
  return ((a * 16 + b) * 16 + c) * 16 + d

/-- The character after a backslash, for the escapes of one letter. -/
def shortEscape? (c : Char) : Option Char :=
  match c with
  | '"' => some '"'
  | '\\' => some '\\'
  | '/' => some '/'
  | 'b' => some '\x08'
  | 'f' => some '\x0c'
  | 'n' => some '\n'
  | 'r' => some '\r'
  | 't' => some '\t'
  | _ => none

/-- Whether a code unit opens a surrogate pair. -/
def isHighSurrogate (n : Nat) : Bool := 0xd800 ≤ n && n < 0xdc00

/-- Whether a code unit closes a surrogate pair. -/
def isLowSurrogate (n : Nat) : Bool := 0xdc00 ≤ n && n < 0xe000

/-- The characters up to the closing quote, decoded. -/
def readChars : List Char → Option (List Char × List Char)
  | [] => none
  | '"' :: cs => some ([], cs)
  | '\\' :: 'u' :: a :: b :: c :: d :: cs =>
    match unit? a b c d with
    | none => none
    | some n =>
      if isHighSurrogate n then
        match cs with
        | '\\' :: 'u' :: e :: f :: g :: h :: cs =>
          match unit? e f g h with
          | none => none
          | some m =>
            if isLowSurrogate m then
              (readChars cs).map fun r =>
                (Char.ofNat (0x10000 + (n - 0xd800) * 0x400 + (m - 0xdc00)) :: r.1, r.2)
            else none
        | _ => none
      else if isLowSurrogate n then none
      else (readChars cs).map fun r => (Char.ofNat n :: r.1, r.2)
  | '\\' :: c :: cs =>
    match shortEscape? c with
    | none => none
    | some e => (readChars cs).map fun r => (e :: r.1, r.2)
  | c :: cs =>
    if c == '\\' || c.toNat < 0x20 then none
    else (readChars cs).map fun r => (c :: r.1, r.2)

def readString (cs : List Char) : Option (String × List Char) :=
  match skipBlank cs with
  | '"' :: cs => (readChars cs).map fun r => (String.ofList r.1, r.2)
  | _ => none

def readOptional (cs : List Char) : Option (Option String × List Char) :=
  match skipBlank cs with
  | 'n' :: cs => (expect ['u', 'l', 'l'] cs).map fun cs => (none, cs)
  | cs => (readString cs).map fun r => (some r.1, r.2)

/-- Passes over the characters up to the closing quote. -/
def skipChars : List Char → Option (List Char)
  | [] => none
  | '"' :: cs => some cs
  | '\\' :: 'u' :: a :: b :: c :: d :: cs =>
    if (unit? a b c d).isSome then skipChars cs else none
  | '\\' :: c :: cs => if (shortEscape? c).isSome then skipChars cs else none
  | c :: cs => if c == '\\' || c.toNat < 0x20 then none else skipChars cs

def skipDigits : List Char → Option (List Char)
  | [] => none
  | c :: cs => if c.isDigit then some (cs.dropWhile Char.isDigit) else none

/-- Passes over the whole part of a number, which has no idle zeros in front. -/
def skipWhole : List Char → Option (List Char)
  | '0' :: c :: cs => if c.isDigit then none else some (c :: cs)
  | cs => skipDigits cs

/-- Passes over the places after the point, if any. -/
def skipFraction : List Char → Option (List Char)
  | '.' :: cs => skipDigits cs
  | cs => some cs

def skipExponent : List Char → Option (List Char)
  | c :: cs =>
    if c == 'e' || c == 'E' then
      match cs with
      | '+' :: cs => skipDigits cs
      | '-' :: cs => skipDigits cs
      | cs => skipDigits cs
    else some (c :: cs)
  | [] => some []

def skipNumber (cs : List Char) : Option (List Char) :=
  let cs := match cs with
    | '-' :: cs => cs
    | cs => cs
  skipWhole cs >>= skipFraction >>= skipExponent

mutual

/-- Passes over a value, descending at most `fuel` times. -/
def skipValueIn : Nat → List Char → Option (List Char)
  | 0, _ => none
  | fuel + 1, cs =>
    match skipBlank cs with
    | '"' :: cs => skipChars cs
    | 'n' :: cs => expect ['u', 'l', 'l'] cs
    | 't' :: cs => expect ['r', 'u', 'e'] cs
    | 'f' :: cs => expect ['a', 'l', 's', 'e'] cs
    | '[' :: cs =>
      match skipBlank cs with
      | ']' :: cs => some cs
      | cs => skipItemsIn fuel cs
    | '\x7b' :: cs =>
      match skipBlank cs with
      | '\x7d' :: cs => some cs
      | cs => skipFieldsIn fuel cs
    | cs => skipNumber cs

/-- Passes over the items of an array that has some. -/
def skipItemsIn : Nat → List Char → Option (List Char)
  | 0, _ => none
  | fuel + 1, cs => do
    let cs ← skipValueIn fuel cs
    match skipBlank cs with
    | ',' :: cs => skipItemsIn fuel cs
    | ']' :: cs => some cs
    | _ => none

/-- Passes over the fields of an object that has some. -/
def skipFieldsIn : Nat → List Char → Option (List Char)
  | 0, _ => none
  | fuel + 1, cs => do
    let cs ← expect ['"'] (skipBlank cs)
    let cs ← skipChars cs
    let cs ← expect [':'] (skipBlank cs)
    let cs ← skipValueIn fuel cs
    match skipBlank cs with
    | ',' :: cs => skipFieldsIn fuel cs
    | '\x7d' :: cs => some cs
    | _ => none

end

/-- Passes over a value. Every descent but one in two takes a character, which bounds them. -/
def skipValue (cs : List Char) : Option (List Char) := skipValueIn (2 * cs.length + 2) cs

/-- Folds the fields of an object that has some. -/
def readFields {σ : Type} (field : σ → String → List Char → Option (σ × List Char)) :
    Nat → σ → List Char → Option (σ × List Char)
  | 0, _, _ => none
  | fuel + 1, s, cs => do
    let (k, cs) ← readString cs
    let cs ← expect [':'] (skipBlank cs)
    let (s, cs) ← field s k cs
    match skipBlank cs with
    | ',' :: cs => readFields field fuel s cs
    | '\x7d' :: cs => some (s, cs)
    | _ => none

/-- Folds the fields of an object in the order of the text; `field` reads the value of a field. A
field takes at least one character, so there are no more fields than characters. -/
def readObject {σ : Type} (field : σ → String → List Char → Option (σ × List Char)) (s : σ)
    (cs : List Char) : Option (σ × List Char) :=
  match skipBlank cs with
  | '\x7b' :: cs =>
    match skipBlank cs with
    | '\x7d' :: cs => some (s, cs)
    | cs => readFields field cs.length s cs
  | _ => none

end Confluence.Json
