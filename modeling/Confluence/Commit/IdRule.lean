import Confluence.Commit.Basic
import Confluence.Document.Json

/-!
# Giving ids to commits

Ids are counted up from a first one, or computed from the content, so that equal content gets an
equal id wherever it is built.
-/

namespace Confluence

/-- How a repository names a new commit. -/
structure IdRule (κ : Type) [CommitId κ] where
  /-- The id from the number of ids given so far and the commit's epoch, edges and level. -/
  assign (serial epoch : Nat) (parents : Edges κ) (level : Nat) : κ

namespace IdRule

/-- Numbers from a first one on; after the greatest comes zero. -/
def sequential (first : UInt64) : IdRule UInt64 :=
  ⟨fun serial _ _ _ => first + UInt64.ofNat serial⟩

/-- The content of a commit as JSON: its epoch, its level and its edges by ascending parent. -/
def contentJson (epoch : Nat) (parents : Edges Digest) (level : Nat) : Json :=
  .arr [.nat epoch, .nat level,
    .obj (parents.toList.map fun e => (e.1.toText, .arr (e.2.map Operation.toJson)))]

/-- The text whose digest is the id. -/
def contentText (epoch : Nat) (parents : Edges Digest) (level : Nat) : String :=
  String.ofList (contentJson epoch parents level).compact

/-- Digests of the content. -/
def content : IdRule Digest :=
  ⟨fun _ epoch parents level => Digest.ofText (contentText epoch parents level)⟩

end IdRule

end Confluence
