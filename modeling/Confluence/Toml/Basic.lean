/-!
# TOML documents

A document is a table of values. Tables come about in five ways, and how one came about decides who
may add to it: a header opens a table once, a longer header implies those on its way, dotted keys
build tables that only dotted keys and longer headers extend, an inline table is closed, and a
header in double brackets opens one table more in a row of tables, of which the last one is open.
-/

namespace Confluence

/-- How a table came about. -/
inductive TableKind where
  | header
  /-- On the way of a header. -/
  | implied
  /-- On the way of a dotted key. -/
  | dotted
  | inline
deriving DecidableEq

inductive Toml where
  | text (s : String)
  | integer (n : Int)
  | float (x : Float)
  | boolean (b : Bool)
  /-- A date, a time of day or both, as it is written. -/
  | moment (s : String)
  | array (items : List Toml)
  | table (kind : TableKind) (entries : List (String × Toml))
  /-- A row of tables under headers of one name. -/
  | tables (before : List (List (String × Toml))) (last : List (String × Toml))
deriving Inhabited

namespace Toml

/-- The entries of a table, in the order in which they were made. -/
abbrev Entries := List (String × Toml)

/-- Puts a value in the place of a key's value. -/
def replace (key : String) (value : Toml) (entries : Entries) : Entries :=
  entries.map fun e => if e.1 = key then (key, value) else e

/-- Gives a key at the end of a path a value. The path leads through tables of dotted keys, which
are made where they are missing; it may pass an implied table or the last of a row but not end
there. -/
def assign (value : Toml) (key : String) : List String → Entries → Option Entries
  | [], entries =>
    match entries.lookup key with
    | none => some (entries ++ [(key, value)])
    | some _ => none
  | step :: path, entries =>
    match entries.lookup step with
    | none =>
      (assign value key path []).map fun inner => entries ++ [(step, table .dotted inner)]
    | some (table kind inner) =>
      if kind = .dotted ∨ (kind = .implied ∧ path ≠ []) then
        (assign value key path inner).map fun inner => replace step (table kind inner) entries
      else none
    | some (tables before last) =>
      if path = [] then none
      else
        (assign value key path last).map fun last => replace step (tables before last) entries
    | some _ => none

/-- Applies a change to the table that the way of a header leads to. Tables that are missing on the
way are implied, and a row of tables leads to its last one. -/
def along (change : Entries → Option Entries) : List String → Entries → Option Entries
  | [], entries => change entries
  | step :: path, entries =>
    match entries.lookup step with
    | none => (along change path []).map fun inner => entries ++ [(step, table .implied inner)]
    | some (table kind inner) =>
      if kind = .inline then none
      else (along change path inner).map fun inner => replace step (table kind inner) entries
    | some (tables before last) =>
      (along change path last).map fun last => replace step (tables before last) entries
    | some _ => none

/-- Opens a table: it is new, or implied by a header before. -/
def openTable (key : String) (entries : Entries) : Option Entries :=
  match entries.lookup key with
  | none => some (entries ++ [(key, table .header [])])
  | some (table .implied inner) => some (replace key (table .header inner) entries)
  | some _ => none

/-- Opens a table at the end of a row, which may be new. -/
def extendRow (key : String) (entries : Entries) : Option Entries :=
  match entries.lookup key with
  | none => some (entries ++ [(key, tables [] [])])
  | some (tables before last) => some (replace key (tables (before ++ [last]) []) entries)
  | some _ => none

/-- A line of a document that says something. -/
inductive Statement where
  | header (path : List String) (key : String)
  /-- A header in double brackets. -/
  | row (path : List String) (key : String)
  | assign (path : List String) (key : String) (value : Toml)

/-- Follows the statements of a document; `current` is the path of the last header. -/
def follow : List Statement → List String → Entries → Option Entries
  | [], _, entries => some entries
  | .header path key :: l, _, entries =>
    along (openTable key) path entries >>= follow l (path ++ [key])
  | .row path key :: l, _, entries =>
    along (extendRow key) path entries >>= follow l (path ++ [key])
  | .assign path key value :: l, current, entries =>
    along (assign value key path) current entries >>= follow l current

/-- A value as a record whose fields have the given names: a table has them under their keys, an
array and a row of tables have them in order, and a moment has none of them. -/
def record (names : List String) : Toml → Option Entries
  | table _ entries => some entries
  | array items => some (names.zip items)
  | tables before last => some (names.zip ((before ++ [last]).map (table .header)))
  | moment _ => some []
  | _ => none

end Toml

end Confluence
