import Confluence.Repository.Calls
import Confluence.Commit.IdRule

/-!
# The store

A repository in memory. A batch of commits is checked as a whole before any of it is stored: an id
keeps its content, and a commit lies above every parent that is stored or comes in the same batch.
The parents themselves may arrive later. Heads must be stored. Whenever the heads of the newest
epoch change they are announced under a new version.
-/

namespace Confluence

/-- What a repository in memory holds. -/
structure Store (κ : Type) [CommitId κ] where
  commits : OrdMap κ (Commit κ) := ∅
  heads : OrdSet κ := ∅
  snapshots : OrdMap κ (List Operation) := ∅
  /-- The number of ids given. -/
  serial : Nat := 0
  /-- The number of commits in all accepted batches, repeated ones included. -/
  pushed : Nat := 0
  /-- The number of accepted changes of the heads. -/
  headUpdates : Nat := 0
  announcement : Announcement κ := ⟨∅, 0⟩

namespace Store

variable {κ : Type} [CommitId κ]

def empty : Store κ := {}

/-- The level of a commit that is stored or, failing that, part of the batch. -/
def levelOf? (s : Store κ) (batch : OrdMap κ Nat) (id : κ) : Option Nat :=
  ((s.commits.get? id).map Commit.level).or (batch.get? id)

/-- Why a parent cannot lie below a commit: its level is known and not lower. -/
def parentFault? (s : Store κ) (batch : OrdMap κ Nat) (c : Commit κ) (parent : κ) :
    Option Fault :=
  (s.levelOf? batch parent).bind fun level =>
    if c.level ≤ level then
      some (.invalidArgument
        ("commit " ++ CommitId.text c.id ++ " level " ++ toString c.level ++
          " must exceed parent " ++ CommitId.text parent ++ " level " ++ toString level))
    else none

/-- Why a commit of a batch cannot be stored: its id has other content, or a parent lies too
high. -/
def commitFault? (s : Store κ) (batch : OrdMap κ Nat) (c : Commit κ) : Option Fault :=
  if (s.commits.get? c.id).any fun d => !d.sameContent c then
    some (.commitConflict (CommitId.text c.id))
  else c.parentIds.findSome? (s.parentFault? batch c)

/-- The levels that a batch brings. -/
def batchLevels (commits : List (Commit κ)) : OrdMap κ Nat :=
  .ofList (commits.map fun c => (c.id, c.level))

/-- Stores a batch, or nothing of it: the batch is checked as a whole before it is stored. A commit
that is stored already stays as it is. -/
def push (s : Store κ) (commits : List (Commit κ)) : Except Fault Unit × Store κ :=
  match commits.findSome? (s.commitFault? (batchLevels commits)) with
  | some e => (.error e, s)
  | none =>
    (.ok (), { s with
      commits := commits.foldl (fun m c => m.insertIfNew c.id c) s.commits
      pushed := s.pushed + commits.length })

/-- The epoch of a commit, zero if it is not stored. -/
def epochOf (s : Store κ) (id : κ) : Nat := ((s.commits.get? id).map Commit.epoch).getD 0

/-- The heads of the newest epoch that some head has. -/
def activeHeads (s : Store κ) : OrdSet κ :=
  let newest := s.heads.toList.foldl (fun e id => max e (s.epochOf id)) 0
  s.heads.filter fun id => s.epochOf id == newest

/-- Announces the active heads unless they are what was announced last. -/
def announce (s : Store κ) : Store κ :=
  if s.activeHeads = s.announcement.heads then s
  else { s with announcement := ⟨s.activeHeads, s.announcement.version + 1⟩ }

/-- The fault of naming a commit that is not stored. -/
def missing (id : κ) : Fault := .notFound ("commit " ++ CommitId.text id)

/-- Takes heads away, then adds heads, all of which must be stored. -/
def updateHeads (s : Store κ) (added removed : OrdSet κ) : Except Fault Unit × Store κ :=
  match added.toList.find? fun id => !s.commits.contains id with
  | some id => (.error (.notFound ("head commit " ++ CommitId.text id)), s)
  | none =>
    (.ok (), announce { s with
      heads := (s.heads.diff removed).union added
      headUpdates := s.headUpdates + 1 })

/-- Gives a stored commit a snapshot in place of the one it had. -/
def saveSnapshot (s : Store κ) (id : κ) (diffs : List Operation) : Except Fault Unit × Store κ :=
  if s.commits.contains id then (.ok (), { s with snapshots := s.snapshots.insert id diffs })
  else (.error (missing id), s)

def answer (rule : IdRule κ) (r : Request κ) (s : Store κ) :
    Except Fault r.Answer × Store κ :=
  match r with
  | .create epoch parents level =>
    (.ok ⟨rule.assign s.serial epoch parents level, parents, level, epoch, none⟩,
      { s with serial := s.serial + 1 })
  | .push commits => s.push commits
  | .updateHeads added removed => s.updateHeads added removed
  | .allHeads => (.ok s.heads, s)
  | .activeHeads => (.ok s.activeHeads, s)
  | .loadCommit id =>
    match s.commits.get? id with
    | some c => (.ok c, s)
    | none => (.error (missing id), s)
  | .loadSnapshot id => (.ok (s.snapshots.get? id), s)
  | .saveSnapshot id diffs => s.saveSnapshot id diffs
  | .countCommits => (.ok s.commits.size, s)

def repository (rule : IdRule κ) : Repository κ (Store κ) :=
  ⟨answer rule, some Store.announcement⟩

structure Stats where
  commits : Nat
  pushed : Nat
  headUpdates : Nat
  snapshots : Nat
deriving DecidableEq

def stats (s : Store κ) : Stats :=
  ⟨s.commits.size, s.pushed, s.headUpdates, s.snapshots.size⟩

end Store

end Confluence
