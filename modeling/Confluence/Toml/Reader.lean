import Confluence.Text.Hex
import Confluence.Toml.Basic

/-!
# Reading TOML

Readers take the characters that are left and return what they read with the characters after it.
The grammar is that of TOML 1.0, with a bound on the parts of a key and on the depth of a value.
-/

namespace Confluence.Toml

abbrev Reader (α : Type) := List Char → Option (α × List Char)

def skipBlank (cs : List Char) : List Char := cs.dropWhile fun c => c == ' ' || c == '\t'

/-- Whether a character may stand in a comment, and in a string unless it ends or escapes. -/
def isPlain (c : Char) : Bool := c == '\t' || (0x20 ≤ c.toNat && c.toNat ≠ 0x7f)

def lineEnd : List Char → Option (List Char)
  | '\n' :: cs => some cs
  | '\r' :: '\n' :: cs => some cs
  | _ => none

/-- Drops a comment up to the end of its line. -/
def skipComment : List Char → List Char
  | '#' :: cs => cs.dropWhile isPlain
  | cs => cs

/-- Passes over blanks and a comment to the end of the line or of the document. -/
def finishLine (cs : List Char) : Option (List Char) :=
  match skipComment (skipBlank cs) with
  | [] => some []
  | cs => lineEnd cs

/-! ## Strings and keys -/

def hexNumber (cs : List Char) : Option Nat :=
  cs.foldlM (fun n c => (Hex.value? c).map fun d => 16 * n + d) 0

/-- The character of a number, if there is one. -/
def scalar? (n : Nat) : Option Char := if n.isValidChar then some (Char.ofNat n) else none

/-- The character after a backslash, for the escapes of one letter. -/
def shortEscape? (c : Char) : Option Char :=
  match c with
  | 'b' => some '\x08'
  | 't' => some '\t'
  | 'n' => some '\n'
  | 'f' => some '\x0c'
  | 'r' => some '\r'
  | '"' => some '"'
  | '\\' => some '\\'
  | _ => none

/-- The character that an escape stands for, after its backslash. -/
def readEscape : Reader Char
  | 'u' :: a :: b :: c :: d :: cs =>
    (hexNumber [a, b, c, d] >>= scalar?).map fun e => (e, cs)
  | 'U' :: a :: b :: c :: d :: e :: f :: g :: h :: cs =>
    (hexNumber [a, b, c, d, e, f, g, h] >>= scalar?).map fun e => (e, cs)
  | c :: cs => (shortEscape? c).map fun e => (e, cs)
  | [] => none

/-- The rest of a string on one line between two quotes `q`, of at most `fuel` characters. Only
between double quotes there are escapes. -/
def lineChars (q : Char) : Nat → Reader (List Char)
  | fuel + 1, c :: cs =>
    if c = q then some ([], cs)
    else if c = '\\' ∧ q = '"' then do
      let (e, cs) ← readEscape cs
      let (s, cs) ← lineChars q fuel cs
      return (e :: s, cs)
    else if isPlain c then (lineChars q fuel cs).map fun r => (c :: r.1, r.2)
    else none
  | _, _ => none

/-- Drops blanks and line ends. -/
def skipGap : List Char → List Char
  | ' ' :: cs => skipGap cs
  | '\t' :: cs => skipGap cs
  | '\n' :: cs => skipGap cs
  | '\r' :: '\n' :: cs => skipGap cs
  | cs => cs

/-- Whether characters begin with a quote three times. -/
def startsTriple (q : Char) (cs : List Char) : Bool := [q, q, q].isPrefixOf cs

/-- The up to two quotes that belong to a string although they stand after three of them. -/
def lastQuotes (q : Char) (cs : List Char) : List Char × List Char :=
  let n := if [q, q].isPrefixOf cs then 2 else if [q].isPrefixOf cs then 1 else 0
  (cs.take n, cs.drop n)

/-- The rest of a string of many lines between quotes `q` three times, of at most `fuel` characters.
Between double quotes there are escapes, and a backslash at the end of a line takes the gap after it
away. -/
def blockChars (q : Char) : Nat → Reader (List Char)
  | fuel + 1, c :: cs =>
    if startsTriple q (c :: cs) then some (lastQuotes q (cs.drop 2))
    else if c = '\\' ∧ q = '"' then
      match lineEnd (skipBlank cs) with
      | some cs => blockChars q fuel (skipGap cs)
      | none => do
        let (e, cs) ← readEscape cs
        let (s, cs) ← blockChars q fuel cs
        return (e :: s, cs)
    else
      match lineEnd (c :: cs) with
      | some cs => (blockChars q fuel cs).map fun r => ('\n' :: r.1, r.2)
      | none =>
        if isPlain c then (blockChars q fuel cs).map fun r => (c :: r.1, r.2) else none
  | _, _ => none

/-- A string on one line, in quotes of either kind. -/
def readLine : Reader String
  | c :: cs =>
    if c = '"' ∨ c = '\'' then
      (lineChars c (cs.length + 1) cs).map fun r => (String.ofList r.1, r.2)
    else none
  | [] => none

/-- A string, in quotes of either kind once or three times. A line end after three quotes does not
belong to it. -/
def readText : Reader String
  | c :: cs =>
    if (c = '"' ∨ c = '\'') ∧ startsTriple c (c :: cs) then
      let cs := cs.drop 2
      (blockChars c (cs.length + 1) ((lineEnd cs).getD cs)).map fun r => (String.ofList r.1, r.2)
    else readLine (c :: cs)
  | [] => none

/-- Whether a character may stand in a key without quotes. -/
def isBare (c : Char) : Bool := c.isAlphanum || c == '_' || c == '-'

def readPart : Reader String
  | [] => none
  | c :: cs =>
    if isBare c then
      some (String.ofList (c :: cs.takeWhile isBare), cs.dropWhile isBare)
    else readLine (c :: cs)

def readParts : Nat → Reader (List String)
  | 0, _ => none
  | fuel + 1, cs =>
    match skipBlank cs with
    | '.' :: cs => do
      let (part, cs) ← readPart (skipBlank cs)
      let (parts, cs) ← readParts fuel cs
      return (part :: parts, cs)
    | cs => some ([], cs)

/-- The bound on the parts of a key and on the depth of a value. -/
def limit : Nat := 80

/-- A key of one or more parts, split into the path and the last part. -/
def readKey (cs : List Char) : Option ((List String × String) × List Char) := do
  let (first, cs) ← readPart (skipBlank cs)
  let (parts, cs) ← readParts (cs.length + 1) cs
  if limit ≤ (first :: parts).length then none
  match (first :: parts).getLast? with
  | none => none
  | some last => some (((first :: parts).dropLast, last), cs)

/-! ## Numbers -/

/-- Digits with single underscores between them, without the underscores. -/
def digits (isDigit : Char → Bool) : List Char → List Char × List Char
  | [] => ([], [])
  | [c] => if isDigit c then ([c], []) else ([], [c])
  | c :: d :: cs =>
    if isDigit c then
      if d = '_' ∧ cs.head?.any isDigit then
        let r := digits isDigit cs
        (c :: r.1, r.2)
      else
        let r := digits isDigit (d :: cs)
        (c :: r.1, r.2)
    else ([], c :: d :: cs)

/-- The number that digits write in a base. -/
def numeral (base : Nat) (ds : List Char) : Nat :=
  ds.foldl (fun n c => base * n + (Hex.value? c).getD 0) 0

/-- Whether an integer fits into 64 bits. -/
def fits (n : Int) : Bool := -9223372036854775808 ≤ n && n ≤ 9223372036854775807

def integer? (n : Int) : Option Toml := if fits n then some (integer n) else none

/-- The nearest floating-point number to `mantissa` times ten to the `exponent`. Far outside the
range of exponents the answer is known without computing the power. -/
def nearestFloat (mantissa : Nat) (exponent : Int) : Float :=
  let size : Int := (toString mantissa).length + exponent
  if mantissa = 0 ∨ size < -400 then 0.0
  else if 400 < size then 1.0 / 0.0
  else if exponent < 0 then Float.ofScientific mantissa true exponent.natAbs
  else Float.ofScientific mantissa false exponent.natAbs

/-- The digits after a point, if there is one. -/
def readFraction : List Char → Option (List Char × List Char)
  | '.' :: cs =>
    match digits Char.isDigit cs with
    | ([], _) => none
    | r => some r
  | cs => some ([], cs)

def readExponent : List Char → Option (Option Int × List Char)
  | c :: cs =>
    if c = 'e' ∨ c = 'E' then
      let (negative, cs) := match cs with
        | '-' :: cs => (true, cs)
        | '+' :: cs => (false, cs)
        | cs => (false, cs)
      match digits Char.isDigit cs with
      | ([], _) => none
      | (ds, cs) =>
        let n : Int := numeral 10 ds
        some (some (if negative then -n else n), cs)
    else some (none, c :: cs)
  | [] => some (none, [])

/-- A decimal number after its sign: a float if it has a fraction or an exponent. A float must not
exceed all floats. -/
def readDecimal (negative : Bool) (cs : List Char) : Option (Toml × List Char) := do
  let (whole, cs) := digits Char.isDigit cs
  if whole.isEmpty || (whole.head? == some '0' && 1 < whole.length) then none
  let (fraction, rest) ← readFraction cs
  let (exponent, rest) ← readExponent rest
  if fraction.isEmpty && exponent.isNone then
    let n : Int := numeral 10 whole
    let v ← integer? (if negative then -n else n)
    return (v, cs)
  else
    let x := nearestFloat (numeral 10 (whole ++ fraction))
      (exponent.getD 0 - fraction.length)
    if x.isInf && !negative then none
    return (float (if negative then -x else x), rest)

/-- An integer in another base, after its mark. -/
def readBased (base : Nat) (isDigit : Char → Bool) (cs : List Char) :
    Option (Toml × List Char) :=
  match digits isDigit cs with
  | ([], _) => none
  | (ds, cs) => (integer? (numeral base ds)).map fun v => (v, cs)

/-- A number after its sign, or one of the names of special floats. -/
def readUnsigned (negative : Bool) : List Char → Option (Toml × List Char)
  | 'i' :: 'n' :: 'f' :: cs =>
    some (float (if negative then -(1.0 / 0.0) else 1.0 / 0.0), cs)
  | 'n' :: 'a' :: 'n' :: cs => some (float (0.0 / 0.0), cs)
  | cs => readDecimal negative cs

def readNumber : List Char → Option (Toml × List Char)
  | '0' :: 'x' :: cs => readBased 16 (fun c => (Hex.value? c).isSome) cs
  | '0' :: 'o' :: cs => readBased 8 (fun c => '0' ≤ c && c ≤ '7') cs
  | '0' :: 'b' :: cs => readBased 2 (fun c => c == '0' || c == '1') cs
  | '-' :: cs => readUnsigned true cs
  | '+' :: cs => readUnsigned false cs
  | cs => readUnsigned false cs

/-! ## Moments -/

/-- A number of exactly `size` digits within bounds. -/
def readFixed (size least most : Nat) (cs : List Char) : Option (Nat × List Char) :=
  let ds := cs.take size
  let n := numeral 10 ds
  if ds.length = size ∧ ds.all Char.isDigit ∧ least ≤ n ∧ n ≤ most then some (n, cs.drop size)
  else none

def pass (c : Char) : List Char → Option (List Char)
  | d :: cs => if d = c then some cs else none
  | [] => none

def daysIn (year month : Nat) : Nat :=
  if month = 2 then
    if year % 4 = 0 ∧ (year % 100 ≠ 0 ∨ year % 400 = 0) then 29 else 28
  else if month = 4 ∨ month = 6 ∨ month = 9 ∨ month = 11 then 30
  else 31

def passDate (cs : List Char) : Option (List Char) := do
  let (year, cs) ← readFixed 4 0 9999 cs
  let cs ← pass '-' cs
  let (month, cs) ← readFixed 2 1 12 cs
  let cs ← pass '-' cs
  let (_, cs) ← readFixed 2 1 (daysIn year month) cs
  return cs

def passMinutes (cs : List Char) : Option (List Char) := do
  let (_, cs) ← readFixed 2 0 23 cs
  let cs ← pass ':' cs
  let (_, cs) ← readFixed 2 0 59 cs
  return cs

/-- Passes over a time of day, whose last minute may have a leap second. -/
def passTime (cs : List Char) : Option (List Char) := do
  let cs ← passMinutes cs
  let cs ← pass ':' cs
  let (_, cs) ← readFixed 2 0 60 cs
  match cs with
  | '.' :: d :: rest => return if d.isDigit then rest.dropWhile Char.isDigit else cs
  | _ => return cs

/-- Drops the distance to universal time, if it is given. -/
def skipOffset : List Char → List Char
  | [] => []
  | c :: cs =>
    if c = 'Z' ∨ c = 'z' then cs
    else if c = '+' ∨ c = '-' then (passMinutes cs).getD (c :: cs)
    else c :: cs

/-- Passes over a date, a time of day or both. -/
def passMoment (cs : List Char) : Option (List Char) :=
  match passDate cs with
  | none => passTime cs
  | some [] => some []
  | some (c :: cs) =>
    if c = 'T' ∨ c = 't' ∨ c = ' ' then
      match passTime cs with
      | some cs => some (skipOffset cs)
      | none => some (c :: cs)
    else some (c :: cs)

/-- A moment or a number. -/
def readNumeric (cs : List Char) : Option (Toml × List Char) :=
  match passMoment cs with
  | some rest => some (moment (String.ofList (cs.take (cs.length - rest.length))), rest)
  | none => readNumber cs

/-! ## Values -/

/-- Drops blanks, comments and line ends, at most `fuel` lines. -/
def skipLines : Nat → List Char → List Char
  | 0, cs => cs
  | fuel + 1, cs =>
    let cs := skipComment (skipBlank cs)
    match lineEnd cs with
    | some cs => skipLines fuel cs
    | none => cs

/-- Drops blanks, comments and line ends. -/
def skipSpace (cs : List Char) : List Char := skipLines cs.length cs

mutual

/-- A value that is at most `depth` deep, descending at most `fuel` times. -/
def readValueIn (depth : Nat) : Nat → List Char → Option (Toml × List Char)
  | 0, _ => none
  | fuel + 1, cs =>
    match cs with
    | '"' :: _ => (readText cs).map fun r => (text r.1, r.2)
    | '\'' :: _ => (readText cs).map fun r => (text r.1, r.2)
    | 't' :: 'r' :: 'u' :: 'e' :: cs => some (boolean true, cs)
    | 'f' :: 'a' :: 'l' :: 's' :: 'e' :: cs => some (boolean false, cs)
    | '[' :: cs =>
      match depth with
      | 0 => none
      | depth + 1 =>
        match skipSpace cs with
        | ']' :: cs => some (array [], cs)
        | cs => (readItemsIn depth fuel cs).map fun r => (array r.1, r.2)
    | '\x7b' :: cs =>
      match depth with
      | 0 => none
      | depth + 1 =>
        match skipBlank cs with
        | '\x7d' :: cs => some (table .inline [], cs)
        | cs => (readPairsIn depth fuel [] cs).map fun r => (table .inline r.1, r.2)
    | cs => readNumeric cs

def readItemsIn (depth : Nat) : Nat → List Char → Option (List Toml × List Char)
  | 0, _ => none
  | fuel + 1, cs => do
    let (item, cs) ← readValueIn depth fuel cs
    match skipSpace cs with
    | ']' :: cs => some ([item], cs)
    | ',' :: cs =>
      match skipSpace cs with
      | ']' :: cs => some ([item], cs)
      | cs => do
        let (items, cs) ← readItemsIn depth fuel cs
        return (item :: items, cs)
    | _ => none

/-- The pairs of an inline table that has some, added to those before. -/
def readPairsIn (depth : Nat) : Nat → Entries → List Char → Option (Entries × List Char)
  | 0, _, _ => none
  | fuel + 1, entries, cs => do
    let ((path, key), cs) ← readKey cs
    match skipBlank cs with
    | '=' :: cs => do
      let (value, cs) ← readValueIn depth fuel (skipBlank cs)
      let entries ← assign value key path entries
      match skipBlank cs with
      | '\x7d' :: cs => some (entries, cs)
      | ',' :: cs => readPairsIn depth fuel entries cs
      | _ => none
    | _ => none

end

/-- A value. Every descent but one in two takes a character, which bounds them. -/
def readValue (cs : List Char) : Option (Toml × List Char) :=
  readValueIn (limit - 1) (2 * cs.length + 2) cs

/-! ## Documents -/

def readHeader (cs : List Char) : Option (Statement × List Char) := do
  let ((path, key), cs) ← readKey cs
  match skipBlank cs with
  | ']' :: cs => (finishLine cs).map fun cs => (.header path key, cs)
  | _ => none

/-- A header in double brackets, after the first two. -/
def readRow (cs : List Char) : Option (Statement × List Char) := do
  let ((path, key), cs) ← readKey cs
  match skipBlank cs with
  | ']' :: ']' :: cs => (finishLine cs).map fun cs => (.row path key, cs)
  | _ => none

def readAssignment (cs : List Char) : Option (Statement × List Char) := do
  let ((path, key), cs) ← readKey cs
  match skipBlank cs with
  | '=' :: cs => do
    let (value, cs) ← readValue (skipBlank cs)
    let cs ← finishLine cs
    return (.assign path key value, cs)
  | _ => none

/-- The statements of a document of at most `fuel` lines. -/
def readStatements : Nat → List Char → Option (List Statement)
  | 0, _ => none
  | fuel + 1, cs =>
    match skipBlank cs with
    | [] => some []
    | '[' :: '[' :: cs => do
      let (s, cs) ← readRow cs
      return s :: (← readStatements fuel cs)
    | '[' :: cs => do
      let (s, cs) ← readHeader cs
      return s :: (← readStatements fuel cs)
    | c :: cs =>
      if c = '#' ∨ c = '\n' ∨ c = '\r' then finishLine (c :: cs) >>= readStatements fuel
      else do
        let (s, cs) ← readAssignment (c :: cs)
        return s :: (← readStatements fuel cs)

/-- Reads a document. A byte order mark in front is passed over. -/
def parse? (s : String) : Option Entries :=
  let cs := match s.toList with
    | '\ufeff' :: cs => cs
    | cs => cs
  readStatements (cs.length + 1) cs >>= fun l => follow l [] []

end Confluence.Toml
