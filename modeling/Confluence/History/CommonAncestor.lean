import Confluence.History.Search

/-!
# The nearest common ancestor

A walk from several heads at once records for every commit the heads that reach it, each with the
squashed operations from the commit up to the head. A commit is visited after all its descendants,
so the first visited commit that every head reaches is the nearest one.
-/

namespace Confluence

open Program

/-- By head, the squashed operations that lead to it from a commit. -/
abbrev Reach (κ : Type) [CommitId κ] := OrdMap κ (List Operation)

/-- A commit that every head reaches. -/
structure CommonAncestor (κ : Type) [CommitId κ] where
  commit : κ
  paths : Reach κ

namespace CommonAncestor

variable {κ : Type} [CommitId κ]

/-- Hands what a commit knows about heads on to a parent. The parent keeps the path that it has to
a head already. -/
def spread (edge : List Operation) (reached known : Reach κ) : Reach κ :=
  reached.toList.foldl
    (fun known e => known.insertIfNew e.1 (Operation.squash (edge ++ e.2))) known

/-- Hands what a commit knows on to its parents, of which those not met before are loaded. A parent
that has been visited already lies above the commit or is the commit itself, and is passed by. -/
def spreadAll (visited : OrdSet κ) (reached : Reach κ) :
    List (κ × List Operation) → Frontier κ (Reach κ) → Program κ (Frontier κ (Reach κ))
  | [], f => return f
  | (parent, edge) :: edges, f =>
    if visited.contains parent then spreadAll visited reached edges f
    else
      match f.get? parent with
      | some (c, known) =>
        spreadAll visited reached edges (f.insert parent (c, spread edge reached known))
      | none => do
        let c ← loadCommit parent
        spreadAll visited reached edges (f.insert parent (c, spread edge reached ∅))

/-- Visits at most `fuel` commits, up to the first that all heads reach. -/
def walk (heads : OrdSet κ) :
    Nat → OrdSet κ → Frontier κ (Reach κ) → Program κ (CommonAncestor κ)
  | 0, _, _ => fail (.notFound ("common ancestor of heads " ++ heads.inMessage))
  | fuel + 1, visited, f =>
    match f.pop? with
    | none => fail (.notFound ("common ancestor of heads " ++ heads.inMessage))
    | some ((c, reached), rest) =>
      if reached.size = heads.size then return ⟨c.id, reached⟩
      else do
        let visited := visited.insert c.id
        let f ← spreadAll visited reached c.parents.toList rest
        walk heads fuel visited f

/-- The nearest commit that all of some heads reach, whose commits are given. -/
def find (heads : OrdSet κ) (commits : List (Commit κ)) : Program κ (CommonAncestor κ) := do
  let bound ← countCommits
  walk heads bound ∅ (Frontier.add ∅ (commits.map fun c => (c, .single c.id [])))

end CommonAncestor

end Confluence
