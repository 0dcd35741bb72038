import Confluence.Node.Retry
import Confluence.Simulation.Settings
import Confluence.Toml.Reader

/-!
# Configuration files

Settings are read from TOML. Unknown keys are ignored and missing ones leave the setting as it is
by default, but a range of seeds has both its ends and nothing else. A group of settings is a table,
or an array of their values in order, of which those beyond the last setting are ignored.
-/

namespace Confluence

/-- What was found where a configuration file should be. -/
inductive ConfigFile where
  | missing
  | unreadable
  | bytes (content : ByteArray)

/-- Why a configuration file gives no settings. -/
inductive ConfigDefect where
  /-- The file cannot be read as text. -/
  | unreadable
  /-- The text is no TOML, or a value has the wrong type or size. -/
  | malformed
  /-- The settings break a rule. -/
  | invalid (message : String)
deriving DecidableEq

namespace Config

open Toml

/-- The value of a key, or a default; `none` if the value does not fit. -/
def fieldOr {α : Type} (d : α) (read : Toml → Option α) (entries : Entries) (key : String) :
    Option α :=
  match entries.lookup key with
  | none => some d
  | some v => read v

def below (bound : Nat) : Toml → Option Nat
  | integer n => if 0 ≤ n ∧ n < bound then some n.toNat else none
  | _ => none

def word64 : Toml → Option Nat := below UInt64.size

def word32 : Toml → Option Nat := below UInt32.size

def word8 : Toml → Option Nat := below UInt8.size

/-- A float, for which an integer may stand. -/
def real : Toml → Option Float
  | float x => some x
  | integer n => some (Float.ofInt n)
  | _ => none

/-- Reads a record whose fields have the given names. -/
def inner {α : Type} (names : List String) (read : Entries → Option α) (v : Toml) : Option α :=
  v.record names >>= read

def policyNames : List String := ["initial_delay_ms", "multiplier", "max_delay_ms", "max_attempts"]

def retryPolicy (entries : Entries) : Option RetryPolicy := do
  let d : RetryPolicy := {}
  return {
    initialDelay := ← fieldOr d.initialDelay word64 entries "initial_delay_ms"
    multiplier := ← fieldOr d.multiplier real entries "multiplier"
    maxDelay := ← fieldOr d.maxDelay word64 entries "max_delay_ms"
    maxAttempts := ← fieldOr d.maxAttempts word32 entries "max_attempts" }

def nodeSettings (entries : Entries) : Option NodeSettings := do
  let d : NodeSettings := {}
  return {
    pollInterval := ← fieldOr d.pollInterval word64 entries "poll_interval_ms"
    retry := ← fieldOr d.retry (inner policyNames retryPolicy) entries "retry" }

def weightNames : List String := ["edit", "commit", "push", "fetch"]

def actionWeights (entries : Entries) : Option ActionWeights := do
  let d : ActionWeights := {}
  return {
    edit := ← fieldOr d.edit word32 entries "edit"
    commit := ← fieldOr d.commit word32 entries "commit"
    push := ← fieldOr d.push word32 entries "push"
    fetch := ← fieldOr d.fetch word32 entries "fetch" }

def rateNames : List String :=
  ["reject_push_percent", "lost_ack_percent", "read_heads_percent", "update_heads_percent",
    "load_percent"]

def faultRates (entries : Entries) : Option FaultRates := do
  let d : FaultRates := {}
  return {
    rejectPush := ← fieldOr d.rejectPush word8 entries "reject_push_percent"
    lostAck := ← fieldOr d.lostAck word8 entries "lost_ack_percent"
    readHeads := ← fieldOr d.readHeads word8 entries "read_heads_percent"
    updateHeads := ← fieldOr d.updateHeads word8 entries "update_heads_percent"
    load := ← fieldOr d.load word8 entries "load_percent" }

def seedRange (entries : Entries) : Option (Nat × Nat) := do
  let first ← entries.lookup "start" >>= word64
  let last ← entries.lookup "end" >>= word64
  if entries.length = 2 then some (first, last) else none

def campaignSettings (entries : Entries) : Option CampaignSettings := do
  let d : CampaignSettings := {}
  let seeds ← fieldOr (d.firstSeed, d.endSeed) (inner ["start", "end"] seedRange) entries
    "seed_range"
  return {
    replicas := ← fieldOr d.replicas word64 entries "replicas"
    steps := ← fieldOr d.steps word64 entries "steps"
    keys := ← fieldOr d.keys word64 entries "keys"
    deletePercent := ← fieldOr d.deletePercent word8 entries "delete_percent"
    weights := ← fieldOr d.weights (inner weightNames actionWeights) entries "weights"
    faults := ← fieldOr d.faults (inner rateNames faultRates) entries "faults"
    firstSeed := seeds.1
    endSeed := seeds.2 }

/-- Reads settings from the bytes of a file and checks them. -/
def decode {α : Type} (read : Entries → Option α) (defect? : α → Option String)
    (content : ByteArray) : Except ConfigDefect α :=
  match String.fromUTF8? content with
  | none => .error .unreadable
  | some s =>
    match parse? s >>= read with
    | none => .error .malformed
    | some a =>
      match defect? a with
      | some message => .error (.invalid message)
      | none => .ok a

/-- The settings of a node; without a file they are the default ones. -/
def loadNode : ConfigFile → Except ConfigDefect NodeSettings
  | .missing => .ok {}
  | .unreadable => .error .unreadable
  | .bytes content => decode nodeSettings NodeSettings.defect? content

/-- The settings of a campaign, for which there must be a file. -/
def loadCampaign : ConfigFile → Except ConfigDefect CampaignSettings
  | .missing => .error .unreadable
  | .unreadable => .error .unreadable
  | .bytes content => decode campaignSettings CampaignSettings.defect? content

end Config

end Confluence
