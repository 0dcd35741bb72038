import Confluence.Random
import Confluence.Repository.Request

/-!
# Injected faults

A repository around another one that fails a share of its requests, chosen by a seeded generator.
A request fails before it takes effect, with one exception: a push may be stored and then fail for
want of an acknowledgement, so that the caller cannot tell whether it took effect.
-/

namespace Confluence

/-- The shares of requests that fail, in per cent. -/
structure FaultRates where
  rejectPush : Nat := 10
  lostAck : Nat := 5
  readHeads : Nat := 5
  updateHeads : Nat := 5
  load : Nat := 1
deriving DecidableEq

/-- No request fails. -/
def FaultRates.none : FaultRates := ⟨0, 0, 0, 0, 0⟩

structure FaultCounts where
  rejectedPushes : Nat := 0
  lostAcks : Nat := 0
  headReads : Nat := 0
  headUpdates : Nat := 0
  loads : Nat := 0
deriving DecidableEq, Inhabited

def FaultCounts.total (c : FaultCounts) : Nat :=
  c.rejectedPushes + c.lostAcks + c.headReads + c.headUpdates + c.loads

/-- The places where a fault can be injected. -/
inductive Injection where
  | rejectPush
  | lostAck
  | readHeads
  | updateHeads
  | load
deriving DecidableEq

namespace Injection

def name : Injection → String
  | rejectPush => "RejectPush"
  | lostAck => "LostAck"
  | readHeads => "ReadHeads"
  | updateHeads => "UpdateHeads"
  | load => "Load"

/-- The share of requests that fail at a place. -/
def rate (r : FaultRates) : Injection → Nat
  | rejectPush => r.rejectPush
  | lostAck => r.lostAck
  | readHeads => r.readHeads
  | updateHeads => r.updateHeads
  | load => r.load

def count (c : FaultCounts) : Injection → FaultCounts
  | rejectPush => { c with rejectedPushes := c.rejectedPushes + 1 }
  | lostAck => { c with lostAcks := c.lostAcks + 1 }
  | readHeads => { c with headReads := c.headReads + 1 }
  | updateHeads => { c with headUpdates := c.headUpdates + 1 }
  | load => { c with loads := c.loads + 1 }

def fault (i : Injection) : Fault := .storage ("injected " ++ i.name ++ " fault")

end Injection

/-- A repository's state together with the generator of faults and what it has done. -/
structure Faulty (σ : Type) where
  inner : σ
  random : Random
  counts : FaultCounts := {}
  enabled : Bool := true

namespace Faulty

variable {κ σ : Type} [CommitId κ] {α : Type}

/-- Whether a fault happens at a place. -/
def trips (rates : FaultRates) (i : Injection) (s : Faulty σ) : Bool × Faulty σ :=
  if s.enabled then
    let (hit, random) := s.random.hits (i.rate rates)
    (hit, { s with random, counts := if hit then i.count s.counts else s.counts })
  else (false, s)

def pass (repository : Repository κ σ) (r : Request κ) (s : Faulty σ) :
    Except Fault r.Answer × Faulty σ :=
  let (a, inner) := repository.answer r s.inner
  (a, { s with inner })

/-- Passes a request on unless a fault happens first. -/
def guarded (rates : FaultRates) (i : Injection) (repository : Repository κ σ) (r : Request κ)
    (s : Faulty σ) : Except Fault r.Answer × Faulty σ :=
  match s.trips rates i with
  | (true, s) => (.error i.fault, s)
  | (false, s) => s.pass repository r

/-- Loses the acknowledgement of a request that succeeded, if a fault happens. -/
def acknowledged (rates : FaultRates) : Except Fault α × Faulty σ → Except Fault α × Faulty σ
  | (.error e, s) => (.error e, s)
  | (.ok a, s) =>
    match s.trips rates .lostAck with
    | (true, s) => (.error Injection.lostAck.fault, s)
    | (false, s) => (.ok a, s)

def answer (rates : FaultRates) (repository : Repository κ σ) (r : Request κ) (s : Faulty σ) :
    Except Fault r.Answer × Faulty σ :=
  match r with
  | .push commits =>
    match s.trips rates .rejectPush with
    | (true, s) => (.error Injection.rejectPush.fault, s)
    | (false, s) => acknowledged rates (s.pass repository (.push commits))
  | .updateHeads added removed =>
    s.guarded rates .updateHeads repository (.updateHeads added removed)
  | .allHeads => s.guarded rates .readHeads repository .allHeads
  | .activeHeads => s.guarded rates .readHeads repository .activeHeads
  | .loadCommit id => s.guarded rates .load repository (.loadCommit id)
  | .loadSnapshot id => s.guarded rates .load repository (.loadSnapshot id)
  | .create epoch parents level => s.pass repository (.create epoch parents level)
  | .saveSnapshot id diffs => s.pass repository (.saveSnapshot id diffs)
  | .countCommits => s.pass repository .countCommits

/-- A repository some of whose requests fail. It announces nothing: whoever waits for new heads
has to ask again. -/
def repository (rates : FaultRates) (inner : Repository κ σ) : Repository κ (Faulty σ) :=
  ⟨answer rates inner, none⟩

end Faulty

end Confluence
