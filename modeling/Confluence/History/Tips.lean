import Confluence.History.Search

/-!
# Tips of a set of heads

A head that is an ancestor of another head adds nothing to a merge. `withoutAncestors` leaves out
all such heads. It walks back from the heads, but never below the lowest of them, since no head can
lie there.
-/

namespace Confluence.Tips

open Program

variable {κ : Type} [CommitId κ]

structure State (κ : Type) [CommitId κ] where
  frontier : Frontier κ Unit
  /-- The commits that have been met. -/
  seen : OrdSet κ
  /-- The heads that no visited commit has for a parent. -/
  tips : OrdSet κ

/-- The walk after a visit that met some parents; those below `floor` are not visited. -/
def State.advance (s : State κ) (floor : Nat) (rest : Frontier κ Unit) (c : Commit κ)
    (parents : List (Commit κ)) : State κ where
  frontier := rest.add ((parents.filter fun p => floor ≤ p.level).map fun p => (p, ()))
  seen := s.seen.insertMany c.parentIds
  tips := s.tips.diff (.ofList c.parentIds)

/-- Visits at most `fuel` commits. -/
def walk (floor : Nat) : Nat → State κ → Program κ (OrdSet κ)
  | 0, s => return s.tips
  | fuel + 1, s =>
    match s.frontier.pop? with
    | none => return s.tips
    | some ((c, ()), rest) => do
      let parents ← loadCommits (c.parentIds.filter fun id => !s.seen.contains id)
      walk floor fuel (s.advance floor rest c parents)

def floorOf : List (Commit κ) → Nat
  | [] => 0
  | c :: l => l.foldl (fun n d => min n d.level) c.level

/-- The heads that are not ancestors of other heads of the set. Fewer than two heads are not looked
at. -/
def withoutAncestors (heads : OrdSet κ) : Program κ (OrdSet κ) := do
  if heads.size ≤ 1 then return heads
  let (commits, bound) ← Search.prepare heads
  walk (floorOf commits) bound
    { frontier := Frontier.add ∅ (commits.map fun c => (c, ())), seen := heads, tips := heads }

end Confluence.Tips
