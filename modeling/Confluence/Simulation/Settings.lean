import Confluence.Repository.Faulty

/-!
# Settings of simulations

How many replicas act, how often and on how many keys, how likely each action is, and how often
the storage fails. A campaign adds a range of seeds.
-/

namespace Confluence

structure ActionWeights where
  edit : Nat := 50
  commit : Nat := 20
  push : Nat := 20
  fetch : Nat := 10
deriving DecidableEq

def ActionWeights.total (w : ActionWeights) : Nat := w.edit + w.commit + w.push + w.fetch

/-- What a simulation does, up to the seed. -/
structure SimulationSettings where
  replicas : Nat := 4
  steps : Nat := 64
  keys : Nat := 6
  /-- The share of edits that take a key away, in per cent. -/
  deletePercent : Nat := 10
  weights : ActionWeights := {}
  faults : FaultRates := {}
deriving DecidableEq

/-- What is wrong with the settings of a simulation. -/
def SimulationSettings.defect? (s : SimulationSettings) : Option String :=
  if s.replicas = 0 then some "replicas must be > 0"
  else if s.steps = 0 then some "steps must be > 0"
  else if s.keys = 0 then some "keys must be > 0"
  else if 100 < s.deletePercent then some "delete_percent must be <= 100"
  else if s.weights.total = 0 then some "at least one action weight must be > 0"
  else none

/-- A simulation for every seed of a range, whose end is not part of it. -/
structure CampaignSettings extends SimulationSettings where
  firstSeed : Nat := 0
  endSeed : Nat := 100
deriving DecidableEq

/-- What is wrong with the settings of a campaign. -/
def CampaignSettings.defect? (s : CampaignSettings) : Option String :=
  if s.endSeed ≤ s.firstSeed then some "seed_range must not be empty"
  else s.toSimulationSettings.defect?

/-- Why a simulation gave no result: what was being done, then what went wrong with it. -/
structure Trouble where
  message : String
  causes : List String := []
deriving DecidableEq

namespace Trouble

/-- Puts what was being done in front. -/
def within (context : String) (t : Trouble) : Trouble := ⟨context, t.message :: t.causes⟩

/-- All on one line. -/
def line (t : Trouble) : String := ": ".intercalate (t.message :: t.causes)

end Trouble

end Confluence
