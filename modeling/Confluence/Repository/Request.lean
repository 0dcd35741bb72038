import Confluence.Commit.Basic
import Confluence.Fault

/-!
# Programs over a repository

A repository stores commits, snapshots and the set of heads, and answers requests one at a time.
A program is a tree of requests: it stops with an outcome, or makes a request and goes on with
whatever the answer is. It says nothing about the repository, so one program runs against a store
in memory, against one that fails now and then, or step by step between other programs.
-/

namespace Confluence

/-- What a repository can be asked for. -/
inductive Request (κ : Type) [CommitId κ] where
  /-- Builds a commit without storing it. -/
  | create (epoch : Nat) (parents : Edges κ) (level : Nat)
  /-- Stores a batch of commits, all or none. -/
  | push (commits : List (Commit κ))
  /-- Removes heads and adds heads in one step. -/
  | updateHeads (added removed : OrdSet κ)
  /-- The heads of all epochs. -/
  | allHeads
  /-- The heads of the newest epoch. -/
  | activeHeads
  | loadCommit (id : κ)
  | loadSnapshot (id : κ)
  | saveSnapshot (id : κ) (diffs : List Operation)
  /-- The number of stored commits, which bounds every walk through them. -/
  | countCommits

/-- What a request is answered with, if it does not fail. -/
abbrev Request.Answer {κ : Type} [CommitId κ] : Request κ → Type
  | create .. => Commit κ
  | push _ => Unit
  | updateHeads .. => Unit
  | allHeads => OrdSet κ
  | activeHeads => OrdSet κ
  | loadCommit _ => Commit κ
  | loadSnapshot _ => Option (List Operation)
  | saveSnapshot .. => Unit
  | countCommits => Nat

/-- A computation that makes requests. -/
inductive Program (κ : Type) [CommitId κ] (α : Type) where
  | done (outcome : Except Fault α)
  | call (request : Request κ) (next : Except Fault request.Answer → Program κ α)

namespace Program

variable {κ : Type} [CommitId κ] {α β : Type}

/-- Goes on with the value of a program; a fault ends both. -/
protected def bind (p : Program κ α) (f : α → Program κ β) : Program κ β :=
  match p with
  | done (.ok a) => f a
  | done (.error e) => done (.error e)
  | call r next => call r fun a => (next a).bind f

instance : Monad (Program κ) where
  pure a := done (.ok a)
  bind := Program.bind

/-- Ends with a fault. -/
def fail (e : Fault) : Program κ α := done (.error e)

/-- Makes the outcome of a program its value, so that a fault does not end what follows. -/
def attempt (p : Program κ α) : Program κ (Except Fault α) :=
  match p with
  | done o => done (.ok o)
  | call r next => call r fun a => (next a).attempt

def ask (r : Request κ) : Program κ r.Answer := call r done

/-- Goes on with an outcome that needs no request. -/
def ofExcept (o : Except Fault α) : Program κ α := done o

@[simp] theorem done_ok_bind (a : α) (f : α → Program κ β) :
    (done (.ok a) : Program κ α) >>= f = f a := rfl

@[simp] theorem done_error_bind (e : Fault) (f : α → Program κ β) :
    (done (.error e) : Program κ α) >>= f = done (.error e) := rfl

@[simp] theorem call_bind (r : Request κ) (next : Except Fault r.Answer → Program κ α)
    (f : α → Program κ β) : call r next >>= f = call r fun a => next a >>= f := rfl

instance : LawfulMonad (Program κ) :=
  LawfulMonad.mk' _
    (fun p => by
      induction p with
      | done o => cases o <;> rfl
      | call r next ih => exact congrArg (call r) (funext ih))
    (fun _ _ => rfl)
    (fun p f g => by
      induction p with
      | done o => cases o <;> rfl
      | call r next ih => exact congrArg (call r) (funext ih))

end Program

/-- The heads that a repository has announced, with the number of announcements before. -/
structure Announcement (κ : Type) [CommitId κ] where
  heads : OrdSet κ
  version : Nat

/-- How a repository with states in `σ` answers requests. -/
structure Repository (κ : Type) [CommitId κ] (σ : Type) where
  answer (request : Request κ) (state : σ) : Except Fault request.Answer × σ
  /-- The latest announcement, if the repository announces changes of its heads. -/
  announced : Option (σ → Announcement κ)

def Program.run {κ σ α : Type} [CommitId κ] (repository : Repository κ σ) :
    Program κ α → σ → Except Fault α × σ
  | done o, s => (o, s)
  | call r next, s =>
    let (a, s) := repository.answer r s
    (next a).run repository s

end Confluence
