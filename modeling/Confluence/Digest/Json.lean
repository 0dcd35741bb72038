import Confluence.Digest.Basic
import Confluence.Json.Reader

/-!
# Digests as JSON

A digest is written as a string of its digits. It is read from any string whose text is a digest.
-/

namespace Confluence.Digest

def toJson (d : Digest) : Json := .str d.toText

def render (d : Digest) : List Char := d.toJson.compact

/-- Reads a digest and nothing after it but blanks. -/
def parseJson? (cs : List Char) : Option Digest :=
  match Json.readString cs with
  | some (t, cs) => if (Json.skipBlank cs).isEmpty then (parse t).toOption else none
  | none => none

end Confluence.Digest
