import Confluence.History.Window
import Confluence.Repository.Store
import Confluence.Simulation.Settings
import Confluence.Simulation.Trace
import Confluence.Simulation.Verdict

/-!
# Simulations

Some replicas share a repository whose requests fail now and then. In every step a replica and an
action are drawn; the seed decides all draws, those of faults included. After the last step faults
cease, and every replica brings its work in and catches up.
-/

namespace Confluence

open Program

inductive Action where
  | edit
  | commit
  | push
  | fetch
deriving DecidableEq

/-- The action of a draw below the sum of the weights. -/
def ActionWeights.action (w : ActionWeights) (roll : Nat) : Action :=
  if roll < w.edit then .edit
  else if roll < w.edit + w.commit then .commit
  else if roll < w.edit + w.commit + w.push then .push
  else .fetch

/-- A simulation between two steps. -/
structure World where
  repository : Faulty (Store UInt64)
  replicas : List (Replica UInt64)
  random : Random
  trace : List Event := []
  unexpected : List (Nat × String) := []

structure SimulationResult where
  trace : List Event
  settled : Settled UInt64
  /-- The faults injected before they ceased. -/
  faults : FaultCounts
  /-- The number of merges in the history of the heads. -/
  merges : Nat

def SimulationResult.interesting (r : SimulationResult) : Bool :=
  0 < r.faults.total && 0 < r.merges

def SimulationResult.head? (r : SimulationResult) : Option UInt64 := r.settled.heads.first?

namespace Simulation

/-- The repository of a simulation: a store that counts ids from one, with faults. -/
def repository (s : SimulationSettings) : Repository UInt64 (Faulty (Store UInt64)) :=
  Faulty.repository s.faults (Store.repository (.sequential 1))

/-- The stream of draws that belongs to the faults. -/
def faultStream : UInt64 := 1

def record (w : World) (step replica : Nat) (kind : EventKind) : World :=
  { w with trace := w.trace ++ [⟨step, replica, kind⟩] }

/-- Notes a failure; one that will not pass by itself is unexpected. -/
def recordFailure (w : World) (step replica : Nat) (action : String) (e : Fault) : World :=
  if e.isTransient then record w step replica (.fault action e.code)
  else
    record { w with unexpected := w.unexpected ++ [(replica, e.message)] } step replica
      (.error action e.message)

/-- Lets a replica take its turn with a call. A fault is noted; otherwise `event` says what there is
to note. -/
def turn {α : Type} (s : SimulationSettings) (step : Nat) (r : Replica UInt64) (action : String)
    (call : Program UInt64 (Except Fault α × Replica UInt64)) (event : α → Option EventKind)
    (w : World) : World :=
  match call.run (repository s) w.repository with
  | (.error e, state) => recordFailure { w with repository := state } step r.id action e
  | (.ok (outcome, r'), state) =>
    let w := { w with repository := state, replicas := w.replicas.set r.id r' }
    match outcome with
    | .error e => recordFailure w step r.id action e
    | .ok a =>
      match event a with
      | some kind => record w step r.id kind
      | none => w

/-- Draws a key and a value, and edits. -/
def edit (s : SimulationSettings) (step : Nat) (r : Replica UInt64) (w : World) : World :=
  let (k, random) := w.random.below (UInt64.ofNat s.keys)
  let (deletes, random) := random.hits s.deletePercent
  let key := "k" ++ toString k.toNat
  let value := if deletes then none else some ("r" ++ toString r.id ++ "s" ++ toString step)
  let w := { w with random }
  match r.edit key value with
  | none => w
  | some (_, r') =>
    record { w with replicas := w.replicas.set r.id r' } step r.id (.edit key value)

def act (s : SimulationSettings) (step : Nat) (r : Replica UInt64) (w : World) : Action → World
  | .edit => edit s step r w
  | .commit => turn s step r "commit" r.attemptCommit (Option.map .commit) w
  | .push =>
    let pushed (f : Fetched UInt64) : EventKind :=
      .push ((r.pending.map Commit.id).getD f.commit) f.commit f.diffs.length
    turn s step r "push" r.attemptPush (Option.map pushed) w
  | .fetch =>
    let fetched (f : Fetched UInt64) : Option EventKind :=
      if f.commit = r.cursor then none else some (.fetch r.cursor f.commit f.diffs.length)
    turn s step r "fetch" r.attemptFetch (fun f => f.bind fetched) w

def step (s : SimulationSettings) (n : Nat) (w : World) : World :=
  let (i, random) := w.random.below (UInt64.ofNat w.replicas.length)
  let (roll, random) := random.below (UInt64.ofNat s.weights.total)
  let w := { w with random }
  match w.replicas[i.toNat]? with
  | none => w
  | some r => act s n r w (s.weights.action roll.toNat)

/-- A number of steps, the next of which has the number `n`. -/
def steps (s : SimulationSettings) : Nat → Nat → World → World
  | 0, _, w => w
  | count + 1, n, w => steps s count (n + 1) (step s n w)

/-! ## Settling -/

/-- Notes what a program was doing when it failed. -/
def during {α : Type} (context : String) (p : Program UInt64 α) :
    ExceptT Trouble (Program UInt64) α :=
  ExceptT.mk do
    match ← p.attempt with
    | .ok a => return .ok a
    | .error e => return .error ⟨context, [e.message]⟩

/-- Goes on if a program does not fail. -/
def plainly {α : Type} (p : Program UInt64 α) : ExceptT Trouble (Program UInt64) α :=
  ExceptT.mk do
    match ← p.attempt with
    | .ok a => return .ok a
    | .error e => return .error ⟨e.message, []⟩

/-- Lets every replica bring its work in. -/
def flushAll : List (Replica UInt64) → ExceptT Trouble (Program UInt64) (List (Replica UInt64))
  | [] => return []
  | r :: l => do
    let context := "replica " ++ toString r.id ++ " failed to flush"
    let (outcome, r') ← during context r.flush
    during context (ofExcept outcome)
    return r' :: (← flushAll l)

/-- Lets every replica catch up. -/
def fetchAll : List (Replica UInt64) → ExceptT Trouble (Program UInt64) (List (Replica UInt64))
  | [] => return []
  | r :: l => do
    let (_, r') ← during ("replica " ++ toString r.id ++ " failed to catch up") r.fetch
    return r' :: (← fetchAll l)

/-- The last act: all work is brought in, the heads are merged, and all replicas catch up with the
merge, which is the first part of the answer. -/
def settle (replicas : List (Replica UInt64)) (unexpected : List (Nat × String)) :
    ExceptT Trouble (Program UInt64) (UInt64 × Settled UInt64) := do
  let replicas ← flushAll replicas
  let head ← during "failed to merge remaining heads" Merge.mergeHeads
  let replicas ← fetchAll replicas
  let heads ← plainly activeHeads
  let fetched ← during "checkout after settle" Node.checkout
  let graph ← plainly (Window.load heads none)
  return (head,
    { heads, checkout := Document.applyAll ∅ fetched.diffs, replicas := replicas.map Replica.view,
      graph, unexpected })

/-- The world before the first step: a history with a root on which all replicas stand. The root is
made while there are no faults yet. -/
def start (s : SimulationSettings) (seed : UInt64) : Except Trouble World :=
  let empty : Faulty (Store UInt64) :=
    { inner := .empty, random := .fork seed faultStream, enabled := false }
  match (initRoot 0).run (repository s) empty with
  | (.error e, _) => .error ⟨"failed to create root", [e.message]⟩
  | (.ok root, state) => .ok
      { repository := { state with enabled := true }
        replicas := (List.range s.replicas).map fun id => { id, cursor := root }
        random := .ofSeed seed }

/-- Ends a simulation without faults. -/
def finish (s : SimulationSettings) (w : World) : Except Trouble SimulationResult :=
  let state := { w.repository with enabled := false }
  match ((settle w.replicas w.unexpected).run.run (repository s) state).1 with
  | .error e => .error ⟨e.message, []⟩
  | .ok (.error t) => .error t
  | .ok (.ok (head, settled)) => .ok
      { trace := w.trace ++ [⟨s.steps, 0, .settled head⟩]
        settled
        faults := w.repository.counts
        merges := (settled.graph.commits.filter Commit.isMerge).length }

def run (s : SimulationSettings) (seed : UInt64) : Except Trouble SimulationResult := do
  match s.defect? with
  | some defect => throw ⟨defect, []⟩
  | none => finish s (steps s s.steps 0 (← start s seed))

end Simulation

end Confluence
