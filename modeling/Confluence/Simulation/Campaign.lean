import Confluence.Simulation.Run

/-!
# Campaigns

A campaign runs the simulation of every seed in a range and reports the seeds whose verdict is not
clear. A replay runs one seed and keeps everything.
-/

namespace Confluence

/-- A seed whose simulation did not end as it should. -/
structure SeedFailure where
  seed : Nat
  violations : List String

structure CampaignReport where
  seedsRun : Nat := 0
  seedsPassed : Nat := 0
  /-- The failed seeds, in order. -/
  failures : List SeedFailure := []
  /-- The number of simulations with both faults and merges. -/
  interesting : Nat := 0
  faults : Nat := 0

namespace CampaignReport

def firstFailure? (r : CampaignReport) : Option Nat := r.failures.head?.map SeedFailure.seed

def allPassed (r : CampaignReport) : Bool := r.failures.isEmpty

def toJson (r : CampaignReport) : Json :=
  .obj [("seeds_run", .nat r.seedsRun), ("seeds_passed", .nat r.seedsPassed),
    ("first_failure", match r.firstFailure? with
      | none => .null
      | some seed => .nat seed),
    ("failures", .arr (r.failures.map fun f =>
      .obj [("seed", .nat f.seed), ("violations", .arr (f.violations.map .str))])),
    ("interesting_states_reached", .nat r.interesting), ("faults_injected", .nat r.faults)]

def add (r : CampaignReport) (seed : Nat) (result : SimulationResult) (verdict : Verdict UInt64) :
    CampaignReport where
  seedsRun := r.seedsRun + 1
  seedsPassed := if verdict.passed then r.seedsPassed + 1 else r.seedsPassed
  failures :=
    if verdict.passed then r.failures
    else r.failures ++ [⟨seed, verdict.violations.map Violation.message⟩]
  interesting := if result.interesting then r.interesting + 1 else r.interesting
  faults := r.faults + result.faults.total

end CampaignReport

/-- Everything about the simulation of one seed. -/
structure Replay where
  result : SimulationResult
  verdict : Verdict UInt64

def Replay.violations (r : Replay) : List (Violation UInt64) := r.verdict.violations

namespace Campaign

/-- Runs one seed, whatever the range of the campaign. -/
def runSeed (s : SimulationSettings) (seed : Nat) : Except Trouble Replay :=
  match s.defect? with
  | some defect => .error ⟨defect, []⟩
  | none =>
    match Simulation.run s (UInt64.ofNat seed) with
    | .error t => .error (t.within ("seed " ++ toString seed ++ " aborted"))
    | .ok result => .ok ⟨result, result.settled.verdict⟩

def runSeeds (s : SimulationSettings) :
    Nat → Nat → CampaignReport → Except Trouble CampaignReport
  | 0, _, report => .ok report
  | count + 1, seed, report => do
    let r ← runSeed s seed
    runSeeds s count (seed + 1) (report.add seed r.result r.verdict)

/-- Fails if settings are not in order. -/
def checked (s : CampaignSettings) : Except Trouble Unit :=
  match s.defect? with
  | some defect => .error ⟨defect, []⟩
  | none => .ok ()

def run (s : CampaignSettings) : Except Trouble CampaignReport := do
  checked s
  runSeeds s.toSimulationSettings (s.endSeed - s.firstSeed) s.firstSeed {}

def replay (s : CampaignSettings) (seed : Nat) : Except Trouble Replay := do
  checked s
  runSeed s.toSimulationSettings seed

end Campaign

/-- The history of a replay as a drawing; edges tell how many keys they touch. -/
def Replay.toDot (r : Replay) : String :=
  r.result.settled.graph.toDot r.result.head? Graph.describeKeyCount

end Confluence
