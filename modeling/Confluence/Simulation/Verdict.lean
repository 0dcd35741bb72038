import Confluence.History.Graph
import Confluence.Simulation.Replica

/-!
# Verdicts

What must hold once all replicas have caught up: there is one head, every replica stands on it with
its document and without work of its own, every commit that a replica built is part of the head's
history, levels rise along all edges, and nothing failed that should not. A verdict lists what does
not hold.
-/

namespace Confluence

/-- A simulation after its replicas have caught up. -/
structure Settled (κ : Type) [CommitId κ] where
  heads : OrdSet κ
  /-- The document of a fresh checkout. -/
  checkout : Document
  replicas : List (ReplicaView κ)
  /-- The history of the heads. -/
  graph : Graph κ
  /-- The failures that should not happen, with the replica that met them. -/
  unexpected : List (Nat × String)

inductive Violation (κ : Type) where
  | headCount (heads : List κ)
  /-- The keys on which a replica differs, with its own value and that of the checkout. -/
  | divergence (replica : Nat) (differing : List (String × Option String × Option String))
  | cursorBehind (replica : Nat) (cursor head : κ)
  | unflushedWork (replica : Nat)
  | lostCommit (replica : Nat) (commit : κ)
  | levelOrder (commit parent : κ)
  | unexpected (replica : Nat) (error : String)
deriving DecidableEq

namespace Violation

variable {κ : Type} [CommitId κ]

def message : Violation κ → String
  | headCount heads =>
    "HeadCount: expected one head, found " ++ Text.bracketed (heads.map CommitId.brief)
  | divergence replica differing =>
    "Divergence: replica " ++ toString replica ++ " differs on " ++ toString differing.length ++
      " key(s):" ++ String.join (differing.map fun d =>
        " " ++ d.1 ++ "=" ++ Text.quoteOption d.2.1 ++ " vs " ++ Text.quoteOption d.2.2 ++ ";")
  | cursorBehind replica cursor head =>
    "CursorBehind: replica " ++ toString replica ++ " at " ++ CommitId.text cursor ++
      ", head is " ++ CommitId.text head
  | unflushedWork replica =>
    "UnflushedWork: replica " ++ toString replica ++ " still holds local edits"
  | lostCommit replica commit =>
    "LostCommit: commit " ++ CommitId.text commit ++ " by replica " ++ toString replica ++
      " unreachable from head"
  | levelOrder commit parent =>
    "LevelOrder: commit " ++ CommitId.text commit ++ " is not above parent " ++
      CommitId.text parent
  | unexpected replica error =>
    "Unexpected: replica " ++ toString replica ++ " failed with " ++ error

end Violation

/-- The outcome of one or more checks. -/
structure Verdict (κ : Type) where
  passed : Bool
  violations : List (Violation κ)

namespace Verdict

variable {κ : Type}

/-- The verdict of a check that has found some violations, or none. -/
def ofViolations (l : List (Violation κ)) : Verdict κ := ⟨l.isEmpty, l⟩

/-- Adds the verdict of a further check, unless that has passed. -/
def and (v w : Verdict κ) : Verdict κ :=
  if w.passed then v else ⟨false, v.violations ++ w.violations⟩

end Verdict

/-- The keys on which two documents differ, ascending, with both values. -/
def Document.differences (d e : Document) : List (String × Option String × Option String) :=
  let keys := (OrdSet.ofList (d.entries.keys ++ e.entries.keys)).toList
  (keys.filter fun k => d.get? k != e.get? k).map fun k => (k, d.get? k, e.get? k)

namespace Settled

variable {κ : Type} [CommitId κ]

def checkSingleHead (s : Settled κ) : List (Violation κ) :=
  if s.heads.size = 1 then [] else [.headCount s.heads.toList]

/-- A replica stands on the first head, holds no work of its own, and has the document of the
checkout. -/
def checkReplica (s : Settled κ) (r : ReplicaView κ) : List (Violation κ) :=
  let behind := match s.heads.first? with
    | some head => if r.cursor = head then [] else [.cursorBehind r.id r.cursor head]
    | none => []
  let unflushed :=
    if 0 < r.uncommitted || r.unacknowledged.isSome then [.unflushedWork r.id] else []
  let differing := r.document.differences s.checkout
  behind ++ unflushed ++ if differing.isEmpty then [] else [.divergence r.id differing]

def checkConvergence (s : Settled κ) : List (Violation κ) := s.replicas.flatMap s.checkReplica

/-- Every commit that a replica built is the first head or an ancestor of it. Without heads nothing
is checked. -/
def checkDurability (s : Settled κ) : List (Violation κ) :=
  match s.heads.first? with
  | none => []
  | some head => s.replicas.flatMap fun r =>
      (r.authored.filter fun c => c ≠ head && !s.graph.isAncestor c head).map (.lostCommit r.id)

def checkLevelOrder (g : Graph κ) : List (Violation κ) :=
  g.topologicalOrder.flatMap fun c =>
    (c.parentIds.filter fun p => (g.nodes.get? p).any fun n => c.level ≤ n.commit.level).map
      (.levelOrder c.id)

def checkErrors (s : Settled κ) : List (Violation κ) :=
  s.unexpected.map fun e => .unexpected e.1 e.2

/-- All that does not hold. -/
def check (s : Settled κ) : List (Violation κ) :=
  s.checkSingleHead ++ s.checkConvergence ++ s.checkDurability ++ checkLevelOrder s.graph ++
    s.checkErrors

/-- The verdict on a simulation, one check after another. -/
def verdict (s : Settled κ) : Verdict κ :=
  Verdict.ofViolations s.checkSingleHead
    |>.and (.ofViolations s.checkConvergence)
    |>.and (.ofViolations s.checkDurability)
    |>.and (.ofViolations (checkLevelOrder s.graph))
    |>.and (.ofViolations s.checkErrors)

end Settled

end Confluence
