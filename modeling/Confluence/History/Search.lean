import Confluence.Document.Accumulate
import Confluence.History.Frontier
import Confluence.Repository.Calls

/-!
# Searching the past of heads

A search walks back from a set of heads, visits every commit at most once, the greatest first, and
ends at the first commit that its probe accepts. Along the way it accumulates the edges of one path
to each commit: the path of the child that met the commit first.
-/

namespace Confluence

open Program

/-- How a walk reached a commit: the head it started from, and what it kept of the edges. -/
structure Path (κ α : Type) where
  child : κ
  childLevel : Nat
  epoch : Nat
  diffs : α

/-- The path on to a parent. -/
def Path.extend {κ α : Type} (path : Path κ α) (acc : Accumulator α) (edge : List Operation) :
    Path κ α :=
  { path with diffs := acc.extend path.diffs edge }

/-- The commit that a search has found, with the path to it and what the probe said. -/
structure Found (κ α τ : Type) where
  commit : κ
  path : Path κ α
  value : τ

/-- The course of a search: the visited commits in order, and how it ended. -/
structure SearchReport (κ α τ : Type) where
  visits : List κ
  outcome : Except Fault (Found κ α τ)

namespace Search

variable {κ : Type} [CommitId κ] {α τ : Type}

/-- A probe looks at the commit of a visit, whose number counts from one. -/
abbrev Probe (κ : Type) [CommitId κ] (τ : Type) := Nat → Commit κ → Program κ (Option τ)

/-- Accepts the commits of one id. -/
def isCommit (id : κ) : Probe κ Unit := fun _ c =>
  return if c.id = id then some () else none

/-- Accepts the commits that have a snapshot. -/
def hasSnapshot : Probe κ (List Operation) := fun _ c => loadSnapshot c.id

structure State (κ : Type) [CommitId κ] (α : Type) where
  frontier : Frontier κ (Path κ α)
  /-- The commits that have been met. -/
  seen : OrdSet κ
  visits : List κ

def start (acc : Accumulator α) (heads : OrdSet κ) (commits : List (Commit κ)) : State κ α where
  frontier := Frontier.add ∅ (commits.map fun c => (c, ⟨c.id, c.level, c.epoch, acc.start⟩))
  seen := heads
  visits := []

/-- The parents that have not been met before, with their edges. -/
def fresh (seen : OrdSet κ) (c : Commit κ) : List (κ × List Operation) :=
  c.parents.toList.filter fun e => !seen.contains e.1

/-- The search after a visit that met some parents. -/
def State.advance (s : State κ α) (acc : Accumulator α) (rest : Frontier κ (Path κ α))
    (c : Commit κ) (path : Path κ α) (edges : List (κ × List Operation))
    (parents : List (Commit κ)) : State κ α where
  frontier := rest.add
    ((parents.zip edges).map fun e => (e.1, path.extend acc e.2.2))
  seen := s.seen.insertMany (edges.map (·.1))
  visits := s.visits ++ [c.id]

/-- Visits at most `fuel` commits. A walk that ends without a find ends with the fault
`exhausted`. -/
def walk (acc : Accumulator α) (probe : Probe κ τ) (exhausted : Fault) :
    Nat → State κ α → Program κ (SearchReport κ α τ)
  | 0, s => return ⟨s.visits, .error exhausted⟩
  | fuel + 1, s =>
    match s.frontier.pop? with
    | none => return ⟨s.visits, .error exhausted⟩
    | some ((c, path), rest) => do
      let visits := s.visits ++ [c.id]
      match ← (probe visits.length c).attempt with
      | .error e => return ⟨visits, .error e⟩
      | .ok (some value) => return ⟨visits, .ok ⟨c.id, path, value⟩⟩
      | .ok none =>
        let edges := fresh s.seen c
        match ← (loadCommits (edges.map (·.1))).attempt with
        | .error e => return ⟨visits, .error e⟩
        | .ok parents => walk acc probe exhausted fuel (s.advance acc rest c path edges parents)

/-- The fault of a search that no commit satisfies. -/
def exhausted (heads : OrdSet κ) : Fault :=
  .notFound ("ancestor of " ++ heads.inMessage ++ " matching the search")

def prepare (heads : OrdSet κ) : Program κ (List (Commit κ) × Nat) := do
  let commits ← loadCommits heads.toList
  return (commits, ← countCommits)

/-- Searches the heads and their ancestors and reports the visits, also where it fails. Only stored
commits are visited, each once, so their number bounds the walk. -/
def report (heads : OrdSet κ) (acc : Accumulator α) (probe : Probe κ τ) :
    Program κ (SearchReport κ α τ) := do
  match ← (prepare heads).attempt with
  | .error e => return ⟨[], .error e⟩
  | .ok (commits, bound) => walk acc probe (exhausted heads) bound (start acc heads commits)

/-- The first commit, from the heads downwards, that the probe accepts. -/
def find (heads : OrdSet κ) (acc : Accumulator α) (probe : Probe κ τ) :
    Program κ (Found κ α τ) := do
  ofExcept (← report heads acc probe).outcome

end Search

end Confluence
