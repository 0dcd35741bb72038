import Confluence.Node.Basic
import Confluence.Proofs.History.Replay
import Confluence.Proofs.Repository.Responses

/-!
# Readers and writers on one store

Nodes work on one store at the same time: some build commits, push them or merge the heads, others
fetch or check out. Every call is a job, a program of which one request is answered at a time, in
any order. A job remembers the heads that were active when it last asked for them. Commits are built
on stored parents, with edges that are anchored at the document that the parent is replayed to, and
a node fetches from the root or from a commit that an earlier job has led it to.
-/

namespace Confluence

open History

variable {κ : Type} [CommitId κ]

inductive Task (κ : Type) [CommitId κ] where
  | create (parent : κ) (diffs : List Operation) (level : Nat)
  | push (c : Commit κ)
  | mergeHeads
  | fetch (current : κ)
  | checkout

inductive Task.Result (κ : Type) [CommitId κ] where
  | built (c : Commit κ)
  | moved (f : Fetched κ)
  | merged (id : κ)

namespace Task

def program : Task κ → Program κ (Result κ)
  | create parent diffs level => return .built (← Node.createCommit parent diffs level)
  | push c => return .moved (← Node.push c)
  | mergeHeads => return .merged (← Merge.mergeHeads)
  | fetch current => return .moved (← Node.fetch current)
  | checkout => return .moved (← Node.checkout)

def StartsFrom (h : History κ) : Task κ → Document → Prop
  | fetch current, d => h.Replays current d
  | checkout, d => d = ∅
  | _, _ => False

def isReader : Task κ → Bool
  | fetch _ => true
  | checkout => true
  | _ => false

end Task

/-- A call that has been made: what is left of it, and the heads that were active when it last asked
for them. -/
structure Job (κ : Type) [CommitId κ] where
  task : Task κ
  program : Program κ (Task.Result κ)
  read : OrdSet κ := ∅

structure Session (κ : Type) [CommitId κ] where
  store : Store κ
  jobs : List (Job κ) := []

/-- What a job has read of the heads after a request. -/
def Request.read (r : Request κ) (s : Store κ) (before : OrdSet κ) : OrdSet κ :=
  match r with
  | .activeHeads => s.activeHeads
  | _ => before

namespace Session

def Returned (s : Session κ) (result : Task.Result κ) : Prop :=
  ∃ j ∈ s.jobs, j.program = .done (.ok result)

def Admits (root : κ) (s : Session κ) : Task κ → Prop
  | .create parent diffs _ => ∃ d, Replays s.store.commits parent d ∧ d.Anchors diffs
  | .push c => s.Returned (.built c)
  | .fetch current => current = root ∨ ∃ f, s.Returned (.moved f) ∧ f.commit = current
  | .mergeHeads => True
  | .checkout => True

/-- One step: a job starts, or the next request of one is answered. -/
inductive Step (rule : IdRule κ) (root : κ) : Session κ → Session κ → Prop where
  | start {s : Session κ} (task : Task κ) (h : s.Admits root task) :
      Step rule root s { s with jobs := s.jobs ++ [⟨task, task.program, ∅⟩] }
  | request {s : Session κ} {i : Nat} {task : Task κ} {r : Request κ}
      {next : Except Fault r.Answer → Program κ (Task.Result κ)} {read : OrdSet κ}
      {answer : Except Fault r.Answer} {t : Store κ}
      (hi : s.jobs[i]? = some ⟨task, .call r next, read⟩)
      (ha : s.store.answer rule r = (answer, t)) :
      Step rule root s ⟨t, s.jobs.set i ⟨task, next answer, r.read s.store read⟩⟩

def Steps (rule : IdRule κ) (root : κ) : Session κ → Session κ → Prop :=
  Relation.ReflTransGen (Step rule root)

end Session

end Confluence
