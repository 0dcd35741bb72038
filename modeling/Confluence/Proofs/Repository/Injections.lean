import Confluence.Repository.Faulty
import Mathlib.Tactic.Common

/-!
# What becomes of a call

A repository with injected faults does one of three things with a call: it passes it on, it refuses
it, or it passes on a push that succeeds and withholds the acknowledgement. `Goes` says what each of
them means for the repository inside and for the answer. Calls that follow one another leave turns,
and every turn has a passage that explains it; the counts of faults are the numbers of passages with
a fault of their kind.
-/

namespace Confluence

def Injection.tally (c : FaultCounts) : Injection → Nat
  | rejectPush => c.rejectedPushes
  | lostAck => c.lostAcks
  | readHeads => c.headReads
  | updateHeads => c.headUpdates
  | load => c.loads

theorem Injection.tally_count (c : FaultCounts) (i j : Injection) :
    j.tally (i.count c) = j.tally c + if i = j then 1 else 0 := by
  cases i <;> cases j <;> rfl

theorem Injection.total_count (c : FaultCounts) (i : Injection) :
    (i.count c).total = c.total + 1 := by
  cases i <;> simp only [count, FaultCounts.total] <;> omega

inductive Passage where
  | through
  | injected (i : Injection)
deriving DecidableEq

namespace Passage

def count (c : FaultCounts) : Passage → FaultCounts
  | through => c
  | injected i => i.count c

theorem tally_count (c : FaultCounts) (p : Passage) (i : Injection) :
    i.tally (p.count c) = i.tally c + if p = injected i then 1 else 0 := by
  cases p with
  | through => rfl
  | injected j => simp [count, Injection.tally_count]

theorem total_count (c : FaultCounts) (p : Passage) :
    (p.count c).total = c.total + if p = through then 0 else 1 := by
  cases p with
  | through => rfl
  | injected j => simp [count, Injection.total_count]

end Passage

variable {κ σ : Type} [CommitId κ]

def Request.refusal? : Request κ → Option Injection
  | .push _ => some .rejectPush
  | .updateHeads .. => some .updateHeads
  | .allHeads => some .readHeads
  | .activeHeads => some .readHeads
  | .loadCommit _ => some .load
  | .loadSnapshot _ => some .load
  | .create .. => none
  | .saveSnapshot .. => none
  | .countCommits => none

namespace Faulty

/-! ## Calls -/

inductive Call (κ : Type) [CommitId κ] where
  | request (r : Request κ)
  /-- Faults are injected from now on, or are no longer. -/
  | enable (on : Bool)

abbrev Call.Answer : Call κ → Type
  | request r => Except Fault r.Answer
  | enable _ => Unit

def Call.enabled (before : Bool) : Call κ → Bool
  | request _ => before
  | enable on => on

def setEnabled (s : Faulty σ) (on : Bool) : Faulty σ := { s with enabled := on }

def serve (rates : FaultRates) (repository : Repository κ σ) (c : Call κ) (s : Faulty σ) :
    c.Answer × Faulty σ :=
  match c with
  | .request r => answer rates repository r s
  | .enable on => ((), s.setEnabled on)

structure Turn (κ σ : Type) [CommitId κ] where
  call : Call κ
  before : Faulty σ
  answer : call.Answer
  after : Faulty σ

def turns (rates : FaultRates) (repository : Repository κ σ) :
    List (Call κ) → Faulty σ → List (Turn κ σ)
  | [], _ => []
  | c :: calls, s =>
    let (a, t) := serve rates repository c s
    ⟨c, s, a, t⟩ :: turns rates repository calls t

def serveAll (rates : FaultRates) (repository : Repository κ σ) (calls : List (Call κ))
    (s : Faulty σ) : Faulty σ :=
  calls.foldl (fun s c => (serve rates repository c s).2) s

/-! ## Passages -/

/-- What a passage means for the state of the repository inside and for the answer. -/
inductive Goes (repository : Repository κ σ) :
    Passage → (c : Call κ) → σ → c.Answer → σ → Prop where
  /-- The request is answered as the repository inside answers it. -/
  | through {r : Request κ} {t u : σ} {a : Except Fault r.Answer}
      (h : repository.answer r t = (a, u)) : Goes repository .through (.request r) t a u
  | enable (on : Bool) (t : σ) : Goes repository .through (.enable on) t () t
  /-- The request fails and has no effect. -/
  | refused {r : Request κ} {i : Injection} (h : r.refusal? = some i) (t : σ) :
      Goes repository (.injected i) (.request r) t (.error i.fault) t
  /-- The push fails, but has the effect of one that succeeds. -/
  | unacknowledged {commits : List (Commit κ)} {t u : σ}
      (h : repository.answer (.push commits) t = (.ok (), u)) :
      Goes repository (.injected .lostAck) (.request (.push commits)) t
        (.error Injection.lostAck.fault) u

/-- Nothing can be injected: injection is off, or no fault ever happens. -/
def Quiet (rates : FaultRates) (s : Faulty σ) : Prop := s.enabled = false ∨ rates = .none

/-- A passage explains a turn: it says what has happened inside and what has been counted. A turn in
which nothing can be injected draws nothing either. -/
structure Turn.Explained (rates : FaultRates) (repository : Repository κ σ) (x : Turn κ σ)
    (p : Passage) : Prop where
  goes : Goes repository p x.call x.before.inner x.answer x.after.inner
  enabled : x.after.enabled = x.call.enabled x.before.enabled
  counts : x.after.counts = p.count x.before.counts
  quiet : x.before.Quiet rates → p = .through ∧ x.after.random = x.before.random

/-! ## One turn -/

section

variable {rates : FaultRates}

structure Drawn (rates : FaultRates) (i : Injection) (s : Faulty σ) (hit : Bool) (t : Faulty σ) :
    Prop where
  inner : t.inner = s.inner
  enabled : t.enabled = s.enabled
  counts : t.counts = if hit then i.count s.counts else s.counts
  quiet : s.Quiet rates → hit = false ∧ t.random = s.random

theorem drawn_trips {i : Injection} {s t : Faulty σ} {hit : Bool}
    (h : s.trips rates i = (hit, t)) : Drawn rates i s hit t := by
  unfold trips at h
  split at h
  next he =>
    cases h
    refine ⟨rfl, rfl, rfl, fun hq => ?_⟩
    rcases hq with hoff | hnone
    · rw [he] at hoff
      cases hoff
    · subst hnone
      cases i <;> exact ⟨rfl, rfl⟩
  next =>
    cases h
    exact ⟨rfl, rfl, rfl, fun _ => ⟨rfl, rfl⟩⟩

theorem Drawn.explained_pass {i : Injection} {s t : Faulty σ} (h : Drawn rates i s false t)
    (repository : Repository κ σ) (r : Request κ) : Turn.Explained rates repository
      ⟨.request r, s, (t.pass repository r).1, (t.pass repository r).2⟩ .through where
  goes := .through (by rw [← h.inner]; rfl)
  enabled := h.enabled
  counts := h.counts
  quiet := fun hq => ⟨rfl, (h.quiet hq).2⟩

variable (rates) (repository : Repository κ σ)

theorem exists_explained_guarded {r : Request κ} {i : Injection} (hr : r.refusal? = some i)
    (s : Faulty σ) : ∃ p, Turn.Explained rates repository ⟨.request r, s,
      (s.guarded rates i repository r).1, (s.guarded rates i repository r).2⟩ p := by
  rcases ht : s.trips rates i with ⟨hit, t⟩
  have hdrawn := drawn_trips ht
  unfold guarded
  rw [ht]
  cases hit with
  | true =>
      refine ⟨.injected i, ?_, hdrawn.enabled, hdrawn.counts, fun hq => ?_⟩
      · rw [hdrawn.inner]
        exact .refused hr _
      · cases (hdrawn.quiet hq).1
  | false => exact ⟨.through, hdrawn.explained_pass repository r⟩

/-- A push draws twice: before it is passed on, and after it has succeeded. -/
theorem exists_explained_push (commits : List (Commit κ)) (s : Faulty σ) :
    ∃ p, Turn.Explained rates repository ⟨.request (.push commits), s,
      (answer rates repository (.push commits) s).1,
      (answer rates repository (.push commits) s).2⟩ p := by
  rcases ht : s.trips rates .rejectPush with ⟨hit, t⟩
  have hreject := drawn_trips ht
  simp only [answer, ht]
  cases hit with
  | true =>
      refine ⟨.injected .rejectPush, ?_, hreject.enabled, hreject.counts, fun hq => ?_⟩
      · rw [hreject.inner]
        exact .refused rfl _
      · cases (hreject.quiet hq).1
  | false =>
      rcases hinside : repository.answer (.push commits) t.inner with ⟨e | ⟨⟩, u⟩
      · have hpass : t.pass repository (.push commits) = (.error e, { t with inner := u }) := by
          simp only [pass, hinside]
        have hexplained := hreject.explained_pass repository (.push commits)
        rw [hpass] at hexplained
        simp only [hpass, acknowledged]
        exact ⟨.through, hexplained⟩
      · have hpass : t.pass repository (.push commits) = (.ok (), { t with inner := u }) := by
          simp only [pass, hinside]
        have hgoes : repository.answer (.push commits) s.inner = (.ok (), u) := by
          rw [← hreject.inner, hinside]
        rcases hv : trips rates .lostAck { t with inner := u } with ⟨hit, v⟩
        have hlost := drawn_trips hv
        have hquiet : s.Quiet rates → Quiet rates { t with inner := u } :=
          Or.imp_left hreject.enabled.trans
        simp only [hpass, acknowledged, hv]
        cases hit with
        | true =>
            refine ⟨.injected .lostAck, ?_, hlost.enabled.trans hreject.enabled, ?_, fun hq => ?_⟩
            · exact hlost.inner ▸ .unacknowledged hgoes
            · exact hlost.counts.trans (congrArg Injection.lostAck.count hreject.counts)
            · cases (hlost.quiet (hquiet hq)).1
        | false =>
            refine ⟨.through, ?_, hlost.enabled.trans hreject.enabled,
              hlost.counts.trans hreject.counts, fun hq => ⟨rfl, ?_⟩⟩
            · exact hlost.inner ▸ .through hgoes
            · exact (hlost.quiet (hquiet hq)).2.trans (hreject.quiet hq).2

/-- Every turn has a passage that explains it. -/
theorem exists_explained (c : Call κ) (s : Faulty σ) : ∃ p, Turn.Explained rates repository
    ⟨c, s, (serve rates repository c s).1, (serve rates repository c s).2⟩ p := by
  have hpass (r : Request κ) : ∃ p, Turn.Explained rates repository
      ⟨.request r, s, (s.pass repository r).1, (s.pass repository r).2⟩ p :=
    ⟨.through, .through rfl, rfl, rfl, fun _ => ⟨rfl, rfl⟩⟩
  cases c with
  | enable on => exact ⟨.through, .enable on _, rfl, rfl, fun _ => ⟨rfl, rfl⟩⟩
  | request r =>
      cases r with
      | push commits => exact exists_explained_push rates repository commits s
      | updateHeads added removed => exact exists_explained_guarded rates repository rfl s
      | allHeads => exact exists_explained_guarded rates repository rfl s
      | activeHeads => exact exists_explained_guarded rates repository rfl s
      | loadCommit id => exact exists_explained_guarded rates repository rfl s
      | loadSnapshot id => exact exists_explained_guarded rates repository rfl s
      | create epoch parents level => exact hpass _
      | saveSnapshot id diffs => exact hpass _
      | countCommits => exact hpass _

/-! ## All turns -/

/-- Every turn of calls that follow one another is explained by a passage, and the counts of faults
have risen by the numbers of passages with a fault of their kind. -/
theorem turns_explained (calls : List (Call κ)) (s : Faulty σ) :
    ∃ passages, List.Forall₂ (Turn.Explained rates repository)
        (turns rates repository calls s) passages ∧
      (∀ i : Injection, i.tally (serveAll rates repository calls s).counts =
        i.tally s.counts + passages.count (.injected i)) ∧
      (serveAll rates repository calls s).counts.total =
        s.counts.total + passages.countP (· ≠ .through) := by
  induction calls generalizing s with
  | nil => exact ⟨[], .nil, fun _ => rfl, rfl⟩
  | cons c calls ih =>
      obtain ⟨p, hp⟩ := exists_explained rates repository c s
      obtain ⟨passages, hturns, htally, htotal⟩ := ih (serve rates repository c s).2
      have hcounts : (serve rates repository c s).2.counts = p.count s.counts := hp.counts
      refine ⟨p :: passages, .cons hp hturns, fun i => ?_, ?_⟩
      · rw [serveAll, List.foldl_cons, ← serveAll, htally, hcounts, Passage.tally_count,
          List.count_cons]
        simp only [beq_iff_eq]
        omega
      · rw [serveAll, List.foldl_cons, ← serveAll, htotal, hcounts, Passage.total_count,
          List.countP_cons]
        by_cases h : p = .through
        · simp [h]
        · simp [h]
          omega

end

end Faulty

end Confluence
