import Confluence.Repository.Request

/-!
# Working with a repository

One program for each request, and the small programs that combine them: reading the heads with
their commits, pushing commits together with the change of heads they bring, and starting a
history.
-/

namespace Confluence.Program

variable {κ : Type} [CommitId κ]

/-! ## Single requests -/

def createFrom (epoch : Nat) (parents : Edges κ) (level : Nat) : Program κ (Commit κ) :=
  ask (.create epoch parents level)

def create (epoch : Nat) (parent : κ) (diffs : List Operation) (level : Nat) :
    Program κ (Commit κ) :=
  createFrom epoch (.single parent diffs) level

def push (commits : List (Commit κ)) : Program κ Unit := ask (.push commits)

def pushCommit (c : Commit κ) : Program κ Unit := push [c]

def updateHeads (added removed : OrdSet κ) : Program κ Unit := ask (.updateHeads added removed)

def allHeads : Program κ (OrdSet κ) := ask .allHeads

/-- The heads of the newest epoch, as the repository knows them. -/
def activeHeads : Program κ (OrdSet κ) := ask .activeHeads

def loadCommit (id : κ) : Program κ (Commit κ) := ask (.loadCommit id)

/-- The snapshot of a commit, if it has one. -/
def loadSnapshot (id : κ) : Program κ (Option (List Operation)) := ask (.loadSnapshot id)

/-- Gives a commit a snapshot. -/
def storeSnapshot (id : κ) (diffs : List Operation) : Program κ Unit :=
  ask (.saveSnapshot id diffs)

def countCommits : Program κ Nat := ask .countCommits

/-! ## Reading -/

/-- Loads commits in the given order, up to the first fault. -/
def loadCommits : List κ → Program κ (List (Commit κ))
  | [] => pure []
  | id :: ids => do
    let c ← loadCommit id
    let cs ← loadCommits ids
    return c :: cs

def allHeadCommits : Program κ (List (Commit κ)) := do
  loadCommits (← allHeads).toList

/-- The greatest epoch of some commits, zero if there are none. -/
def newestEpoch (commits : List (Commit κ)) : Nat :=
  commits.foldl (fun e c => max e c.epoch) 0

/-- The commits of the newest epoch among some. -/
def newest (commits : List (Commit κ)) : List (Commit κ) :=
  commits.filter fun c => c.epoch == newestEpoch commits

/-- The commits of the heads of the newest epoch. -/
def activeHeadCommits : Program κ (List (Commit κ)) := do
  return newest (← allHeadCommits)

/-- The heads of the newest epoch, found by loading every head. -/
def findActiveHeads : Program κ (OrdSet κ) := do
  return OrdSet.ofList ((← activeHeadCommits).map Commit.id)

def hasCommit (id : κ) : Program κ Bool := do
  match ← (loadCommit id).attempt with
  | .ok _ => return true
  | .error (.notFound _) => return false
  | .error e => fail e

def hasSnapshot (id : κ) : Program κ Bool := do
  return (← loadSnapshot id).isSome

/-! ## Writing -/

/-- Stores a commit and puts it in the place of its parents among the heads. -/
def pushAndUpdateHead (c : Commit κ) : Program κ Unit := do
  pushCommit c
  updateHeads (.single c.id) (.ofList c.parentIds)

/-- Stores a batch; its parents are heads no longer, and the commits of the batch on which none of
the others builds become heads. -/
def pushAndUpdateHeads (commits : List (Commit κ)) : Program κ Unit := do
  let parents := OrdSet.ofList (commits.flatMap Commit.parentIds)
  push commits
  updateHeads (OrdSet.diff (.ofList (commits.map Commit.id)) parents) parents

/-- Starts a history: a commit without parents on level one, with an empty snapshot, as a head. -/
def initRoot (epoch : Nat) : Program κ κ := do
  let root ← createFrom epoch ∅ 1
  pushCommit root
  storeSnapshot root.id []
  updateHeads (.single root.id) ∅
  return root.id

end Confluence.Program
