import Confluence.Node.Basic
import Confluence.Proofs.Repository.Responses

/-!
# Clients that work at the same time

Any number of clients work on one store. An operation that one of them has started is a program
together with a ledger of what it has done, and a step of the system starts an operation or answers
the next request of one of them. A request may fail with a storage fault, before it takes effect or,
for a push, after. Nothing forces an operation to go on: to abandon it is never to answer it again.
-/

namespace Confluence

open Program

variable {κ : Type} [CommitId κ]

inductive Publication (κ : Type) [CommitId κ] where
  /-- A node stores a commit and merges it with the active heads. -/
  | push (c : Commit κ)
  /-- The active heads are merged. -/
  | mergeHeads
  /-- A commit takes the place of its parents. -/
  | pushAndUpdateHead (c : Commit κ)
  /-- A batch of commits takes the place of its parents. -/
  | pushAndUpdateHeads (commits : List (Commit κ))

namespace Publication

def commits : Publication κ → List (Commit κ)
  | push c => [c]
  | mergeHeads => []
  | pushAndUpdateHead c => [c]
  | pushAndUpdateHeads commits => commits

def program : Publication κ → Program κ Unit
  | push c => do
    let _ ← Node.push c
    return ()
  | mergeHeads => do
    let _ ← Merge.mergeHeads
    return ()
  | pushAndUpdateHead c => Program.pushAndUpdateHead c
  | pushAndUpdateHeads commits => Program.pushAndUpdateHeads commits

/-- The ids of a batch differ, and its commits lie above their parents, each of which is stored or
comes in the same batch. -/
structure Admissible (o : Publication κ) (s : Store κ) : Prop where
  distinct : (o.commits.map Commit.id).Nodup
  parents : ∀ c ∈ o.commits, ∀ p ∈ c.parentIds,
    ∃ q, (s.commits.get? p = some q ∨ q ∈ o.commits ∧ q.id = p) ∧ q.level < c.level

end Publication

/-- What an operation has done: the commits that it has asked the store to keep, and whether the
store has accepted its change of the heads. -/
structure Ledger (κ : Type) where
  pushed : List κ := []
  published : Bool := false

def Request.pushes : Request κ → List κ
  | .push commits => commits.map Commit.id
  | _ => []

def Request.publishes (r : Request κ) (answer : Except Fault r.Answer) : Bool :=
  match r, answer with
  | .updateHeads .., .ok _ => true
  | _, _ => false

def Ledger.note (l : Ledger κ) (r : Request κ) (answer : Except Fault r.Answer) : Ledger κ where
  pushed := l.pushed ++ r.pushes
  published := l.published || r.publishes answer

structure Activity (κ : Type) [CommitId κ] where
  program : Program κ Unit
  ledger : Ledger κ := {}

structure System (κ : Type) [CommitId κ] where
  store : Store κ
  activities : List (Activity κ) := []

namespace System

/-- One step: an operation starts, or the next request of one is answered. -/
inductive Step (rule : IdRule κ) : System κ → System κ → Prop where
  | start {s : System κ} (o : Publication κ) (ho : o.Admissible s.store) :
      Step rule s { s with activities := s.activities ++ [⟨o.program, {}⟩] }
  | request {s : System κ} {i : Nat} {r : Request κ}
      {next : Except Fault r.Answer → Program κ Unit} {l : Ledger κ}
      {answer : Except Fault r.Answer} {t : Store κ}
      (hi : s.activities[i]? = some ⟨.call r next, l⟩)
      (ha : s.store.Responds rule (fun e => e.isTransient = true) r answer t) :
      Step rule s ⟨t, s.activities.set i ⟨next answer, l.note r answer⟩⟩

def Steps (rule : IdRule κ) : System κ → System κ → Prop := Relation.ReflTransGen (Step rule)

end System

namespace Store

def Covers (s : Store κ) (x : κ) : Prop := ∃ y ∈ s.heads, History.Ancestor s.commits x y

/-- A store whose commits have their parents below them and whose heads are stored. -/
structure Ready (s : Store κ) : Prop where
  graded : History.Graded s.commits
  heads : ∀ x ∈ s.heads, ∃ c, s.commits.get? x = some c

end Store

end Confluence
