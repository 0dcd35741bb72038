import Confluence.Config.Load
import Confluence.Simulation.Campaign

/-!
# The command line

`run` runs a campaign and prints its report, `replay` runs one seed and prints its trace or its
history. Arguments that do not fit end with code 2; a campaign that cannot be run, or that finds a
violation, ends with code 1 and says so on the error stream.
-/

namespace Confluence.Cli

structure Options where
  config : Option String := none
  replicas : Option Nat := none
  steps : Option Nat := none
  noFaults : Bool := false

inductive Command where
  | run (seeds : Option (Nat × Nat))
  | replay (seed : Nat) (dot : Bool)

/-- A command with its options. -/
structure Invocation where
  json : Bool
  options : Options
  command : Command

/-! ## Reading arguments -/

/-- A number of 64 bits in decimal digits, with a plus sign in front or not. -/
def readNumber (s : String) : Option Nat :=
  let ds := match s.toList with
    | '+' :: ds => ds
    | ds => ds
  if ds.isEmpty || !ds.all Char.isDigit then none
  else
    let n := ds.foldl (fun n c => 10 * n + (c.toNat - '0'.toNat)) 0
    if n < UInt64.size then some n else none

/-- Whether a character is a blank at the ends of a number in a range. -/
def isBlank (c : Char) : Bool :=
  [(0x09, 0x0d), (0x20, 0x20), (0x85, 0x85), (0xa0, 0xa0), (0x1680, 0x1680), (0x2000, 0x200a),
    (0x2028, 0x2029), (0x202f, 0x202f), (0x205f, 0x205f), (0x3000, 0x3000)].any
    fun (r : Nat × Nat) => r.1 ≤ c.toNat && c.toNat ≤ r.2

def trim (cs : List Char) : List Char :=
  ((cs.dropWhile isBlank).reverse.dropWhile isBlank).reverse

/-- Splits at the first two points in a row. -/
def splitAtDots : List Char → Option (List Char × List Char)
  | '.' :: '.' :: cs => some ([], cs)
  | c :: cs => (splitAtDots cs).map fun r => (c :: r.1, r.2)
  | [] => none

/-- A range of seeds that is not empty, its end excluded. -/
def readSeeds (s : String) : Option (Nat × Nat) := do
  let (first, last) ← splitAtDots s.toList
  let first ← readNumber (String.ofList (trim first))
  let last ← readNumber (String.ofList (trim last))
  if first < last then some (first, last) else none

/-- The arguments of a command as far as they have been read. -/
structure Draft where
  json : Bool := false
  dot : Bool := false
  options : Options := {}
  seeds : Option (Nat × Nat) := none
  seed : Option Nat := none

/-- Sets what must not be set twice. -/
def once {α : Type} (present : Option α) (value : Option α) : Option (Option α) :=
  match present, value with
  | none, some v => some (some v)
  | _, _ => none

/-- Raises a flag that must not be raised twice. -/
def raise (flag : Bool) : Option Bool := if flag then none else some true

def readPath (s : String) : Option String := if s.isEmpty then none else some s

/-- Takes a flag, if it is one of the command's. -/
def Draft.flag (replays : Bool) (d : Draft) (name : String) : Option Draft :=
  match name, replays with
  | "--json", _ => (raise d.json).map fun json => { d with json }
  | "--no-faults", _ =>
    (raise d.options.noFaults).map fun noFaults => { d with options := { d.options with noFaults } }
  | "--dot", true => (raise d.dot).map fun dot => { d with dot }
  | _, _ => none

/-- Takes an option with its value, if it is one of the command's. -/
def Draft.option (replays : Bool) (d : Draft) (name value : String) : Option Draft :=
  match name, replays with
  | "--config", _ =>
    (once d.options.config (readPath value)).map fun config =>
      { d with options := { d.options with config } }
  | "--replicas", _ =>
    (once d.options.replicas (readNumber value)).map fun replicas =>
      { d with options := { d.options with replicas } }
  | "--steps", _ =>
    (once d.options.steps (readNumber value)).map fun steps =>
      { d with options := { d.options with steps } }
  | "--seeds", false => (once d.seeds (readSeeds value)).map fun seeds => { d with seeds }
  | _, _ => none

/-- Takes an argument that stands for itself: the seed of a replay. -/
def Draft.positional (replays : Bool) (d : Draft) (value : String) : Option Draft :=
  if replays then (once d.seed (readNumber value)).map fun seed => { d with seed } else none

/-- Whether an argument looks like an option, so that it is no value. -/
def isOption (s : String) : Bool := s.toList.head? == some '-' && s != "-"

def splitAtEquals (s : String) : Option (String × String) :=
  let cs := s.toList
  match cs.dropWhile fun c => c != '=' with
  | [] => none
  | _ :: value => some (String.ofList (cs.takeWhile fun c => c != '='), String.ofList value)

def readArguments (replays : Bool) : Draft → List String → Option Draft
  | d, [] => some d
  | d, "--" :: values => values.foldlM (fun d value => d.positional replays value) d
  | d, [a] =>
    if !isOption a then d.positional replays a
    else
      match splitAtEquals a with
      | some (name, value) => d.option replays name value
      | none => d.flag replays a
  | d, a :: b :: l =>
    if !isOption a then d.positional replays a >>= fun d => readArguments replays d (b :: l)
    else
      match splitAtEquals a with
      | some (name, value) =>
        d.option replays name value >>= fun d => readArguments replays d (b :: l)
      | none =>
        match d.flag replays a with
        | some d => readArguments replays d (b :: l)
        | none =>
          if isOption b then none
          else d.option replays a b >>= fun d => readArguments replays d l

/-- Reads a command line; `none` if it does not fit. -/
def parse (json : Bool) : List String → Option Invocation
  | "--json" :: l => if json then none else parse true l
  | "run" :: l => (readArguments false {} l).map fun d =>
      ⟨json || d.json, d.options, .run d.seeds⟩
  | "replay" :: l => do
    let d ← readArguments true {} l
    let seed ← d.seed
    return ⟨json || d.json, d.options, .replay seed d.dot⟩
  | _ => none

/-! ## Doing what they say -/

/-- What a command leaves behind. -/
structure Outcome where
  code : Nat
  stdout : String := ""
  stderr : String := ""
deriving DecidableEq

/-- The message of a trouble with its causes, each on a line of its own. -/
def report (t : Trouble) : String :=
  let causes := match t.causes with
    | [] => ""
    | [c] => "\n\nCaused by:\n    " ++ c
    | cs => "\n\nCaused by:" ++
        String.join (cs.zipIdx.map fun c => "\n    " ++ toString c.2 ++ ": " ++ c.1)
  "Error: " ++ t.message ++ causes ++ "\n"

/-- Ends with what went wrong, after what has been printed. -/
def failed (stdout : String) (t : Trouble) : Outcome := ⟨1, stdout, report t⟩

/-- The settings that a configuration file gives. A file that cannot be read comes with the
reason. -/
def loadConfig (path : String) (file : Except String ByteArray) :
    Except Trouble CampaignSettings :=
  match file with
  | .error reason => .error ⟨"Failed to read " ++ path, [reason]⟩
  | .ok content =>
    match Config.loadCampaign (.bytes content) with
    | .ok s => .ok s
    | .error .unreadable =>
      .error ⟨"Failed to read " ++ path, ["stream did not contain valid UTF-8"]⟩
    | .error .malformed => .error ⟨"Failed to parse " ++ path, ["TOML parse error"]⟩
    | .error (.invalid message) => .error ⟨"Invalid campaign in " ++ path, [message]⟩

/-- The settings of a campaign: those of the file, if there is one, as changed by the options. -/
def Options.load (o : Options) (read : String → Except String ByteArray) :
    Except Trouble CampaignSettings := do
  let s ← match o.config with
    | none => .ok {}
    | some path => loadConfig path (read path)
  return { s with
    replicas := o.replicas.getD s.replicas
    steps := o.steps.getD s.steps
    faults := if o.noFaults then .none else s.faults }

def reportText (r : CampaignReport) : String :=
  let failure (f : SeedFailure) : String :=
    "seed " ++ toString f.seed ++ " failed:\n" ++
      String.join (f.violations.map fun v => "  " ++ v ++ "\n")
  "seeds: " ++ toString r.seedsRun ++ " run, " ++ toString r.seedsPassed ++
    " passed; faults injected: " ++ toString r.faults ++ "; interesting: " ++
    toString r.interesting ++ "\n" ++ String.join (r.failures.map failure)

def runCampaign (json : Bool) (s : CampaignSettings) : Outcome :=
  match Campaign.run s with
  | .error t => failed "" t
  | .ok r =>
    let stdout := if json then r.toJson.pretty ++ "\n" else reportText r
    match r.firstFailure? with
    | none => ⟨0, stdout, ""⟩
    | some seed =>
      failed stdout
        ⟨"campaign failed; replay with `otter-sim replay " ++ toString seed ++ "`", []⟩

def replayText (r : Replay) : String :=
  let head := match r.result.head? with
    | none => "None"
    | some id => "Some(" ++ toString id.toNat ++ ")"
  String.join (r.result.trace.map fun e => e.toText ++ "\n") ++
    "head: " ++ head ++ "; merges: " ++ toString r.result.merges ++ "; faults: " ++
    toString r.result.faults.total ++ "\n" ++
    String.join (r.violations.map fun v => "violation: " ++ v.message ++ "\n")

/-- The end of the range that holds one seed only, at most the greatest number of 64 bits. -/
def endAfter (seed : Nat) : Nat := min (seed + 1) (UInt64.size - 1)

def replay (json dot : Bool) (seed : Nat) (s : CampaignSettings) : Outcome :=
  match Campaign.replay { s with firstSeed := seed, endSeed := endAfter seed } seed with
  | .error t => failed "" t
  | .ok r =>
    let stdout :=
      if dot then r.toDot
      else if json then (Json.arr (r.result.trace.map Event.toJson)).pretty ++ "\n"
      else replayText r
    if r.verdict.passed then ⟨0, stdout, ""⟩
    else
      failed stdout
        ⟨"seed " ++ toString seed ++ " violates " ++ toString r.violations.length ++
          " invariant(s)", []⟩

/-- Does what a command line says; `read` gives the content of a file or the reason why there is
none. -/
def Invocation.execute (i : Invocation) (read : String → Except String ByteArray) : Outcome :=
  match i.options.load read with
  | .error t => failed "" t
  | .ok s =>
    match i.command with
    | .run seeds =>
      runCampaign i.json
        { s with
          firstSeed := (seeds.map Prod.fst).getD s.firstSeed
          endSeed := (seeds.map Prod.snd).getD s.endSeed }
    | .replay seed dot => replay i.json dot seed s

/-- Whether a command line asks for the version instead of giving a command. -/
def asksVersion : List String → Bool
  | "--json" :: a :: _ => a == "--version" || a == "-V"
  | a :: _ => a == "--version" || a == "-V"
  | [] => false

/-- Reads a command line and does what it says. -/
def run (read : String → Except String ByteArray) (arguments : List String) : Outcome :=
  match parse false arguments with
  | some i => i.execute read
  | none =>
    if asksVersion arguments then ⟨0, "otter-sim 0.4.0\n", ""⟩
    else ⟨2, "", "error: the arguments do not fit\n"⟩

end Confluence.Cli
