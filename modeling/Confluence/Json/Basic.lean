import Confluence.Text.Hex

/-!
# JSON values and their text

`Json` holds the values that are written: natural numbers are the only numbers, and the fields of
an object keep their order. `compact` writes without blanks, `pretty` with two spaces for each
level.
-/

namespace Confluence

inductive Json where
  | null
  | bool (b : Bool)
  | nat (n : Nat)
  | str (s : String)
  | arr (items : List Json)
  | obj (fields : List (String × Json))
deriving Inhabited

namespace Json

/-- A character inside a JSON string: quote, backslash and controls are escaped, all else stands
for itself. -/
def escapeChar (c : Char) : List Char :=
  match c with
  | '"' => ['\\', '"']
  | '\\' => ['\\', '\\']
  | '\x08' => ['\\', 'b']
  | '\x0c' => ['\\', 'f']
  | '\n' => ['\\', 'n']
  | '\r' => ['\\', 'r']
  | '\t' => ['\\', 't']
  | c =>
    if c.toNat < 0x20 then
      ['\\', 'u', '0', '0', Hex.digit (c.toNat / 16), Hex.digit (c.toNat % 16)]
    else [c]

def quote (s : String) : List Char := '"' :: s.toList.flatMap escapeChar ++ ['"']

def ofOption : Option String → Json
  | none => null
  | some s => str s

mutual

/-- The text of a value without blanks. -/
def compact : Json → List Char
  | null => ['n', 'u', 'l', 'l']
  | bool true => ['t', 'r', 'u', 'e']
  | bool false => ['f', 'a', 'l', 's', 'e']
  | nat n => (toString n).toList
  | str s => quote s
  | arr [] => ['[', ']']
  | arr (v :: l) => '[' :: compact v ++ compactItems l
  | obj [] => ['\x7b', '\x7d']
  | obj ((k, v) :: l) => '\x7b' :: quote k ++ ':' :: compact v ++ compactFields l

/-- The items after the first one, with the closing bracket. -/
def compactItems : List Json → List Char
  | [] => [']']
  | v :: l => ',' :: compact v ++ compactItems l

/-- The fields after the first one, with the closing brace. -/
def compactFields : List (String × Json) → List Char
  | [] => ['\x7d']
  | (k, v) :: l => ',' :: quote k ++ ':' :: compact v ++ compactFields l

end

/-- A new line at a depth of nesting. -/
def newline (depth : Nat) : List Char := '\n' :: List.replicate (2 * depth) ' '

mutual

/-- The text of a value whose items and fields stand on lines of their own. -/
def prettyAt (depth : Nat) : Json → List Char
  | null => ['n', 'u', 'l', 'l']
  | bool true => ['t', 'r', 'u', 'e']
  | bool false => ['f', 'a', 'l', 's', 'e']
  | nat n => (toString n).toList
  | str s => quote s
  | arr [] => ['[', ']']
  | arr (v :: l) =>
    '[' :: newline (depth + 1) ++ prettyAt (depth + 1) v ++ prettyItems depth l
  | obj [] => ['\x7b', '\x7d']
  | obj ((k, v) :: l) =>
    '\x7b' :: newline (depth + 1) ++ quote k ++ [':', ' '] ++ prettyAt (depth + 1) v ++
      prettyFields depth l

/-- The items after the first one, with the closing bracket. -/
def prettyItems (depth : Nat) : List Json → List Char
  | [] => newline depth ++ [']']
  | v :: l => ',' :: newline (depth + 1) ++ prettyAt (depth + 1) v ++ prettyItems depth l

/-- The fields after the first one, with the closing brace. -/
def prettyFields (depth : Nat) : List (String × Json) → List Char
  | [] => newline depth ++ ['\x7d']
  | (k, v) :: l =>
    ',' :: newline (depth + 1) ++ quote k ++ [':', ' '] ++ prettyAt (depth + 1) v ++
      prettyFields depth l

end

/-- The text of a value over several lines. -/
def pretty (v : Json) : String := String.ofList (prettyAt 0 v)

end Json

end Confluence
