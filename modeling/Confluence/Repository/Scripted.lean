import Confluence.Repository.Calls

/-!
# Scripted faults

A repository around another one that fails its requests as a script says. For every kind of call
the script holds a queue; each call takes the front of its queue and fails with the fault it finds
there, if any. A push looks at two queues, before it is stored and after.
-/

namespace Confluence

/-- The kinds of calls that a script can fail. -/
inductive ScriptedCall where
  | create
  | push
  | acknowledge
  | updateHeads
  | allHeads
  | loadCommit
  | loadSnapshot
  | saveSnapshot
deriving DecidableEq

/-- For every kind of call the faults still to come; `none` lets a call pass. -/
abbrev Script := ScriptedCall → List (Option Fault)

namespace Script

/-- The script that fails nothing. -/
def empty : Script := fun _ => []

def set (script : Script) (c : ScriptedCall) (queue : List (Option Fault)) : Script :=
  fun d => if d = c then queue else script d

end Script

/-- A repository's state with the rest of the script. -/
structure Scripted (σ : Type) where
  inner : σ
  script : Script

namespace Scripted

variable {κ σ : Type} [CommitId κ] {α : Type}

def next (c : ScriptedCall) (s : Scripted σ) : Option Fault × Scripted σ :=
  match s.script c with
  | [] => (none, s)
  | e :: queue => (e, { s with script := s.script.set c queue })

def pass (repository : Repository κ σ) (r : Request κ) (s : Scripted σ) :
    Except Fault r.Answer × Scripted σ :=
  let (a, inner) := repository.answer r s.inner
  (a, { s with inner })

/-- Passes a request on unless the script fails it. -/
def guarded (c : ScriptedCall) (repository : Repository κ σ) (r : Request κ) (s : Scripted σ) :
    Except Fault r.Answer × Scripted σ :=
  match s.next c with
  | (some e, s) => (.error e, s)
  | (none, s) => s.pass repository r

/-- Fails a request after it succeeded, if the script says so. -/
def acknowledged : Except Fault α × Scripted σ → Except Fault α × Scripted σ
  | (.error e, s) => (.error e, s)
  | (.ok a, s) =>
    match s.next .acknowledge with
    | (some e, s) => (.error e, s)
    | (none, s) => (.ok a, s)

/-- Answers a request other than one for the active heads. -/
def answerSimple (repository : Repository κ σ) (r : Request κ) (s : Scripted σ) :
    Except Fault r.Answer × Scripted σ :=
  match r with
  | .create epoch parents level => s.guarded .create repository (.create epoch parents level)
  | .push commits =>
    match s.next .push with
    | (some e, s) => (.error e, s)
    | (none, s) => acknowledged (s.pass repository (.push commits))
  | .updateHeads added removed =>
    s.guarded .updateHeads repository (.updateHeads added removed)
  | .allHeads => s.guarded .allHeads repository .allHeads
  | .activeHeads => s.pass repository .activeHeads
  | .loadCommit id => s.guarded .loadCommit repository (.loadCommit id)
  | .loadSnapshot id => s.guarded .loadSnapshot repository (.loadSnapshot id)
  | .saveSnapshot id diffs => s.guarded .saveSnapshot repository (.saveSnapshot id diffs)
  | .countCommits => s.pass repository .countCommits

/-- Answers a request. The active heads are found by loading every head, so the script can fail
each of these steps. -/
def answer (repository : Repository κ σ) (r : Request κ) (s : Scripted σ) :
    Except Fault r.Answer × Scripted σ :=
  match r with
  | .activeHeads => Program.findActiveHeads.run ⟨answerSimple repository, none⟩ s
  | r => answerSimple repository r s

/-- A repository that follows a script. It announces nothing. -/
def repository (inner : Repository κ σ) : Repository κ (Scripted σ) :=
  ⟨answer inner, none⟩

end Scripted

end Confluence
