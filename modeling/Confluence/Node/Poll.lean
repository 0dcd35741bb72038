import Confluence.Node.Basic
import Confluence.Node.Retry
import Confluence.Repository.Watch

/-!
# Waiting for news

A node that polls looks at the heads until its current commit is no longer among them, and then
fetches what has changed. Between two looks it waits: for a while after a failure that may pass,
and for the poll interval when the heads are what they were. `react` is the rule, one look at a
time; `simulate` plays it against a clock that jumps from one thing that happens to the next.
-/

namespace Confluence

/-- What polling remembers between two looks. -/
structure Poll (κ : Type) [CommitId κ] where
  watcher : Watcher := {}
  /-- The failures since the last successful look. -/
  failures : Nat := 0
  /-- The heads at the last successful look. -/
  previous : Option (OrdSet κ) := none

namespace Poll

variable {κ σ : Type} [CommitId κ]

/-- What follows from a look. -/
inductive Reaction (κ : Type) [CommitId κ] where
  /-- The heads have news to fetch. -/
  | fetch (heads : OrdSet κ)
  /-- Polling ends with a fault. -/
  | fail (e : Fault)
  /-- There is another look after a number of milliseconds. -/
  | look (delay : Nat) (next : Poll κ)

def react (settings : NodeSettings) (current : κ) (p : Poll κ) :
    Except Fault (OrdSet κ) → Reaction κ
  | .ok heads =>
    if heads.contains current then
      .look (if p.previous = some heads then settings.pollInterval else 0)
        { p with failures := 0, previous := some heads }
    else .fetch heads
  | .error e =>
    if e.isTransient && settings.retry.allows (p.failures + 1) then
      .look (settings.retry.delayFor (p.failures + 1)) { p with failures := p.failures + 1 }
    else .fail e

/-! ## On a clock -/

inductive Phase (κ : Type) [CommitId κ] where
  /-- A look is due, or has not found anything new yet. -/
  | watching (p : Poll κ)
  /-- The next look is at a known time. -/
  | sleeping (wake : Nat) (p : Poll κ)
  /-- Polling has ended. -/
  | over (time : Nat) (outcome : Except Fault (Fetched κ))

/-- Whom a node polls, and what for. -/
structure Setting (κ : Type) [CommitId κ] (σ : Type) where
  repository : Repository κ σ
  settings : NodeSettings
  current : κ
  /-- Whether the node has been told to stop. -/
  stopped : σ → Bool

namespace Setting

/-- The next thing that polling does at a moment, or `none` if it has to wait. To stop comes before
everything else. -/
def step (t : Setting κ σ) (now : Nat) : Phase κ → σ → Option (Phase κ × σ)
  | .over .., _ => none
  | .sleeping wake p, s =>
    if t.stopped s then some (.over now (.error .stopped), s)
    else if wake ≤ now then some (.watching p, s)
    else none
  | .watching p, s =>
    if t.stopped s then some (.over now (.error .stopped), s)
    else
      (t.repository.look p.watcher s).map fun (heads, watcher, s) =>
        match react t.settings t.current { p with watcher } heads with
        | .look delay p => (.sleeping (now + delay) p, s)
        | .fail e => (.over now (.error e), s)
        | .fetch heads =>
          let (outcome, s) := (Node.fetchFrom heads t.current).run t.repository s
          (.over now outcome, s)

/-- Goes on from a moment to a deadline, in at most `fuel` steps. -/
def advance (t : Setting κ σ) (deadline : Nat) : Nat → Nat → Phase κ → σ → Phase κ × σ
  | 0, _, phase, s => (phase, s)
  | fuel + 1, now, phase, s =>
    match t.step now phase s with
    | some (phase, s) => t.advance deadline fuel now phase s
    | none =>
      match phase with
      | .sleeping wake _ =>
        if wake ≤ deadline then t.advance deadline fuel wake phase s else (phase, s)
      | _ => (phase, s)

/-- Plays polling together with events at ascending times, up to a time limit; events after the
limit happen all the same. -/
def play (t : Setting κ σ) (fuel limit : Nat) :
    List (Nat × (σ → σ)) → Nat → Phase κ → σ → Phase κ × σ
  | [], now, phase, s => t.advance limit fuel now phase s
  | (time, event) :: events, now, phase, s =>
    let (phase, s) := t.advance (min time limit) fuel now phase s
    if time ≤ limit then t.play fuel limit events time phase (event s)
    else (phase, (event :: events.map (·.2)).foldl (fun s event => event s) s)

/-- Polls from time zero to the limit, with events at given times; the first look comes before all
of them. Every second look is followed by a wait of at least a millisecond unless a delay is set to
zero, so the limit bounds the steps, with room for some thousands of looks without delay. -/
def simulate (t : Setting κ σ) (limit : Nat) (events : List (Nat × (σ → σ))) (s : σ) :
    Phase κ × σ :=
  let fuel := 8 * (limit + 1000)
  let (phase, s) := t.advance 0 fuel 0 (.watching {}) s
  t.play fuel limit (events.mergeSort fun a b => a.1 ≤ b.1) 0 phase s

end Setting

end Poll

end Confluence
