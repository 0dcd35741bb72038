import Confluence.Node.Basic

/-!
# Replicas

A replica is what an editor keeps: the commit on which its document is based, the document with the
edits made since, and at most one commit that has not been acknowledged. As long as such a commit
is pending it is pushed again as it is, and there are no new edits.
-/

namespace Confluence

/-- A client with its document. -/
structure Replica (κ : Type) [CommitId κ] where
  id : Nat
  /-- The commit on which the document is based. -/
  cursor : κ
  /-- The level of that commit. -/
  level : Nat := 1
  document : Document := ∅
  /-- The edits since the last commit. -/
  working : List Operation := []
  /-- A commit whose push has not been acknowledged. -/
  pending : Option (Commit κ) := none
  /-- The commits that the replica has built, in order. -/
  authored : List κ := []

/-- What can be seen of a replica. -/
structure ReplicaView (κ : Type) where
  id : Nat
  cursor : κ
  document : Document
  authored : List κ
  /-- The number of edits since the last commit. -/
  uncommitted : Nat
  unacknowledged : Option κ
deriving DecidableEq

namespace Replica

variable {κ : Type} [CommitId κ]

def view (r : Replica κ) : ReplicaView κ where
  id := r.id
  cursor := r.cursor
  document := r.document
  authored := r.authored
  uncommitted := r.working.length
  unacknowledged := r.pending.map Commit.id

/-- Edits a key, unless a commit is pending or the value stays what it is. -/
def edit (r : Replica κ) (key : String) (value : Option String) :
    Option (Operation × Replica κ) :=
  let o := r.document.edit key value
  if r.pending.isSome || o.isNoop then none
  else some (o, { r with document := r.document.apply o, working := r.working ++ [o] })

def advance (r : Replica κ) (f : Fetched κ) : Replica κ :=
  { r with document := r.document.applyAll f.diffs, cursor := f.commit, level := f.level }

/-! ## Calls

A fault may end a call; the replica as it is by then comes back with the fault. -/

variable {α : Type}

/-- Builds a commit of the edits, unless there are none or a commit is pending. -/
def attemptCommit (r : Replica κ) : Program κ (Except Fault (Option κ) × Replica κ) := do
  if r.pending.isSome || r.working.isEmpty then return (.ok none, r)
  match ← (Node.createCommit r.cursor r.working (r.level + 1)).attempt with
  | .error e => return (.error e, r)
  | .ok c =>
    return (.ok (some c.id),
      { r with working := [], pending := some c, authored := r.authored ++ [c.id] })

/-- Pushes the pending commit, if there is one, and moves on to the merge. -/
def attemptPush (r : Replica κ) : Program κ (Except Fault (Option (Fetched κ)) × Replica κ) := do
  match r.pending with
  | none => return (.ok none, r)
  | some c =>
    match ← (Node.push c).attempt with
    | .error e => return (.error e, r)
    | .ok f => return (.ok (some f), { r with pending := none }.advance f)

/-- Moves on to an active head, unless there are edits or a pending commit. -/
def attemptFetch (r : Replica κ) : Program κ (Except Fault (Option (Fetched κ)) × Replica κ) := do
  if r.pending.isSome || !r.working.isEmpty then return (.ok none, r)
  match ← (Node.fetch r.cursor).attempt with
  | .error e => return (.error e, r)
  | .ok f => return (.ok (some f), r.advance f)

/-- Commits, pushes and fetches, up to the first fault; what was done before it stays done. -/
def flush (r : Replica κ) : Program κ (Except Fault Unit × Replica κ) := do
  match ← r.attemptCommit with
  | (.error e, r) => return (.error e, r)
  | (.ok _, r) =>
    match ← r.attemptPush with
    | (.error e, r) => return (.error e, r)
    | (.ok _, r) =>
      match ← r.attemptFetch with
      | (.error e, r) => return (.error e, r)
      | (.ok _, r) => return (.ok (), r)

/-- A call made by who has no use for the replica after a fault. -/
def orFail (p : Program κ (Except Fault α × Replica κ)) : Program κ (α × Replica κ) := do
  let (o, r) ← p
  return (← Program.ofExcept o, r)

def commit (r : Replica κ) : Program κ (Option κ × Replica κ) := orFail r.attemptCommit

def push (r : Replica κ) : Program κ (Option (Fetched κ) × Replica κ) := orFail r.attemptPush

def fetch (r : Replica κ) : Program κ (Option (Fetched κ) × Replica κ) := orFail r.attemptFetch

end Replica

end Confluence
