import Confluence.Proofs.Node.Looks
import Mathlib.Logic.Relation

/-!
# Polling on a clock

A node that polls takes its steps while time passes and others work at the repository. For the sake
of the proof a moment also holds when its phase has begun and what each look has found. From these
alone follows what polling does next: a look comes exactly when the wait after the last one is over,
and the first look that ends polling decides the outcome. To be told to stop comes before all that.
-/

namespace Confluence.Poll

variable {κ σ : Type} [CommitId κ]

structure Reading (κ σ : Type) [CommitId κ] where
  asked : Nat
  answered : Nat
  found : Look κ
  /-- The repository after the look. -/
  left : σ

def outcomes (readings : List (Reading κ σ)) : List (Look κ) := readings.map (·.found)

structure Moment (κ σ : Type) [CommitId κ] where
  now : Nat
  phase : Phase κ
  state : σ
  /-- When the phase has begun. -/
  since : Nat
  /-- The looks that have found something, the last one first. -/
  readings : List (Reading κ σ)

def Phase.Open : Phase κ → Prop
  | .over .. => False
  | _ => True

namespace Setting

variable (t : Setting κ σ)

def begun (start : Nat) (s : σ) : Moment κ σ := ⟨start, .watching {}, s, start, []⟩

def reading? (m : Moment κ σ) : Option (Reading κ σ) :=
  match m.phase with
  | .watching p =>
    if t.stopped m.state then none
    else (t.repository.look p.watcher m.state).map fun (found, _, left) =>
      ⟨m.since, m.now, found, left⟩
  | _ => none

/-- Whether polling lets time pass up to a given time: a look may take any time, a wait ends when it
is over, and a node that has been told to stop does so at once. -/
def Waits (now : Nat) : Phase κ → σ → Prop
  | .over .., _ => True
  | .watching _, s => t.stopped s = false
  | .sleeping wake _, s => t.stopped s = false ∧ now ≤ wake

/-- What happens next: a step of polling, something at the repository that does not take back the
word to stop, or nothing for a while. -/
inductive Goes : Moment κ σ → Moment κ σ → Prop where
  | acts {m : Moment κ σ} {phase : Phase κ} {s : σ}
      (h : t.step m.now m.phase m.state = some (phase, s)) :
      Goes m ⟨m.now, phase, s, m.now, (t.reading? m).toList ++ m.readings⟩
  | happens {m : Moment κ σ} (s : σ) (h : t.stopped m.state = true → t.stopped s = true) :
      Goes m { m with state := s }
  | passes {m : Moment κ σ} (now : Nat) (h : m.now ≤ now) (hwaits : t.Waits now m.phase m.state) :
      Goes m { m with now }

def Reaches : Moment κ σ → Moment κ σ → Prop := Relation.ReflTransGen t.Goes

def result (o : Look κ) (s : σ) : Except Fault (Fetched κ) × σ :=
  match o with
  | .ok heads => (Node.fetchFrom heads t.current).run t.repository s
  | .error e => (.error e, s)

/-! ## Single steps -/

section

variable {t} {now wake : Nat} {phase : Phase κ} {p : Poll κ} {s s' : σ} {w w' : Watcher}
  {past : List (Look κ)} {o : Look κ}

theorem step_stopped (hopen : phase.Open) (h : t.stopped s = true) :
    t.step now phase s = some (.over now (.error .stopped), s) := by
  cases phase with
  | «over» time outcome => exact hopen.elim
  | sleeping wake p => exact if_pos h
  | watching p => exact if_pos h

theorem open_of_step {x : Phase κ × σ} (h : t.step now phase s = some x) : phase.Open := by
  cases phase with
  | «over» time outcome => cases h
  | sleeping wake p => trivial
  | watching p => trivial

theorem step_sleeping (h : t.stopped s = false) : t.step now (.sleeping wake p) s =
    if wake ≤ now then some (.watching p, s) else none :=
  if_neg (Bool.eq_false_iff.1 h)

theorem step_watching (h : t.stopped s = false) : t.step now (.watching p) s =
    (t.repository.look p.watcher s).map fun (heads, watcher, s) =>
      match react t.settings t.current { p with watcher } heads with
      | .look delay p => (.sleeping (now + delay) p, s)
      | .fail e => (.over now (.error e), s)
      | .fetch heads =>
        let (outcome, s) := (Node.fetchFrom heads t.current).run t.repository s
        (.over now outcome, s) :=
  if_neg (Bool.eq_false_iff.1 h)

theorem step_lasting (h : t.stopped s = false)
    (hlook : t.repository.look w s = some (o, w', s'))
    (hpast : Lasts t.settings t.current past) (ho : ¬ Ends t.settings t.current past o) :
    t.step now (.watching (memory w past)) s =
      some (.sleeping (now + pause t.settings past o) (memory w' (o :: past)), s') := by
  have hreact := react_of_not_ends (w := w') hpast ho
  unfold memory at hreact
  rw [step_watching h]
  simp only [memory, hlook, Option.map_some, hreact]

theorem step_ending (h : t.stopped s = false)
    (hlook : t.repository.look w s = some (o, w', s'))
    (hpast : Lasts t.settings t.current past) (ho : Ends t.settings t.current past o) :
    t.step now (.watching (memory w past)) s =
      some (.over now (t.result o s').1, (t.result o s').2) := by
  have hreact := react_of_ends (w := w') hpast ho
  unfold memory at hreact
  rw [step_watching h]
  simp only [memory, hlook, Option.map_some, hreact]
  cases o <;> rfl

theorem Waits.stopped (hopen : phase.Open) (h : t.Waits now phase s) : t.stopped s = false := by
  cases phase with
  | «over» time outcome => exact hopen.elim
  | sleeping wake p => exact h.1
  | watching p => exact h

end

/-! ## Accounts -/

/-- When a look is due: at the beginning, or when the wait after the last one is over. -/
def due (start : Nat) : List (Reading κ σ) → Nat
  | [] => start
  | r :: past => r.answered + pause t.settings (outcomes past) r.found

def Regular (start : Nat) : List (Reading κ σ) → Prop
  | [] => True
  | r :: past => ¬ Ends t.settings t.current (outcomes past) r.found ∧ r.asked = t.due start past ∧
      Regular start past

structure Ended (start time : Nat) (outcome : Except Fault (Fetched κ)) (r : Reading κ σ)
    (past : List (Reading κ σ)) : Prop where
  regular : t.Regular start past
  asked : r.asked = t.due start past
  ends : Ends t.settings t.current (outcomes past) r.found
  answered : r.answered = time
  outcome : outcome = (t.result r.found r.left).1

def Account (start : Nat) (m : Moment κ σ) : Prop :=
  match m.phase with
  | .watching p => t.Regular start m.readings ∧ m.since = t.due start m.readings ∧
      ∃ w, p = memory w (outcomes m.readings)
  | .sleeping wake p => t.Regular start m.readings ∧ wake = t.due start m.readings ∧
      m.now ≤ wake ∧ ∃ w, p = memory w (outcomes m.readings)
  | .over time outcome =>
      (∃ r past, m.readings = r :: past ∧ t.Ended start time outcome r past) ∨
        (t.Regular start m.readings ∧ t.stopped m.state = true ∧ outcome = .error .stopped)

variable {t} {start : Nat} {m m' : Moment κ σ}

theorem Regular.lasts {readings : List (Reading κ σ)} (h : t.Regular start readings) :
    Lasts t.settings t.current (outcomes readings) := by
  induction readings with
  | nil => trivial
  | cons r past ih => exact ⟨h.1, ih h.2.2⟩

theorem account_begun (t : Setting κ σ) (start : Nat) (s : σ) :
    t.Account start (begun start s) :=
  ⟨trivial, rfl, {}, rfl⟩

theorem Account.regular (h : t.Account start m) (hopen : m.phase.Open) :
    t.Regular start m.readings := by
  rcases m with ⟨now, phase, s, since, readings⟩
  cases phase with
  | «over» time outcome => exact hopen.elim
  | sleeping wake p => exact h.1
  | watching p => exact h.1

theorem reading?_of_stopped (h : t.stopped m.state = true) : t.reading? m = none := by
  unfold reading?
  split
  next => exact if_pos h
  next => rfl

theorem reading?_watching {now since : Nat} {p : Poll κ} {s s' : σ} {o : Look κ} {w' : Watcher}
    {readings : List (Reading κ σ)} (h : t.stopped s = false)
    (hlook : t.repository.look p.watcher s = some (o, w', s')) :
    t.reading? ⟨now, .watching p, s, since, readings⟩ = some ⟨since, now, o, s'⟩ := by
  simp only [reading?, h, hlook, Option.map_some, Bool.false_eq_true, if_false]

theorem Account.acts (h : t.Account start m) {phase : Phase κ} {s : σ}
    (hstep : t.step m.now m.phase m.state = some (phase, s)) :
    t.Account start ⟨m.now, phase, s, m.now, (t.reading? m).toList ++ m.readings⟩ := by
  rcases m with ⟨now, before, state, since, readings⟩
  cases hstopped : t.stopped state with
  | true =>
      -- to stop comes first, whatever the phase
      have hopen : before.Open := open_of_step hstep
      rw [step_stopped hopen hstopped] at hstep
      cases hstep
      rw [reading?_of_stopped hstopped]
      exact .inr ⟨h.regular hopen, hstopped, rfl⟩
  | false =>
      cases before with
      | «over» time outcome => cases hstep
      | sleeping wake p =>
          rw [step_sleeping hstopped] at hstep
          split at hstep
          next hwake =>
            -- no time has passed beyond the end of the wait, so the look begins just then
            cases hstep
            rcases h with ⟨hregular, hdue, hnow, hmemory⟩
            exact ⟨hregular, (Nat.le_antisymm hnow hwake).trans hdue, hmemory⟩
          next => cases hstep
      | watching p =>
          simp only [Account] at h
          rcases h with ⟨hregular, hsince, w, rfl⟩
          cases hlook : t.repository.look w state with
          | none =>
              rw [step_watching hstopped] at hstep
              simp [memory, hlook] at hstep
          | some x =>
              rcases x with ⟨o, w', left⟩
              rw [reading?_watching hstopped hlook]
              by_cases ho : Ends t.settings t.current (outcomes readings) o
              · rw [step_ending hstopped hlook hregular.lasts ho] at hstep
                cases hstep
                exact .inl ⟨_, readings, rfl, hregular, hsince, ho, rfl, rfl⟩
              · rw [step_lasting hstopped hlook hregular.lasts ho] at hstep
                cases hstep
                exact ⟨⟨ho, hsince, hregular⟩, rfl, Nat.le_add_right _ _, w', rfl⟩

theorem Account.goes (h : t.Account start m) (hgoes : t.Goes m m') : t.Account start m' := by
  cases hgoes with
  | acts hstep => exact h.acts hstep
  | happens s hstop =>
      rcases m with ⟨now, phase, state, since, readings⟩
      cases phase with
      | watching p => exact h
      | sleeping wake p => exact h
      | «over» time outcome =>
          rcases h with hended | ⟨hregular, hstopped, houtcome⟩
          · exact .inl hended
          · exact .inr ⟨hregular, hstop hstopped, houtcome⟩
  | passes now hle hwaits =>
      rcases m with ⟨before, phase, state, since, readings⟩
      cases phase with
      | watching p => exact h
      | sleeping wake p => exact ⟨h.1, h.2.1, hwaits.2, h.2.2.2⟩
      | «over» time outcome => exact h

theorem Account.reaches (h : t.Account start m) (hreaches : t.Reaches m m') :
    t.Account start m' := by
  induction hreaches with
  | refl => exact h
  | tail _ hgoes ih => exact ih.goes hgoes

/-! ## To be told to stop -/

/-- What is left of polling once the node has been told to stop: it ends at once, and nothing more
is looked at. -/
structure Stops (t : Setting κ σ) (m m' : Moment κ σ) : Prop where
  readings : m'.readings = m.readings
  stopped : t.stopped m'.state = true
  phase : m'.phase = m.phase ∧ m'.now = m.now ∨ m'.phase = .over m.now (.error .stopped)

theorem Stops.goes {n : Moment κ σ} (hopen : m.phase.Open) (h : t.Stops m m')
    (hgoes : t.Goes m' n) : t.Stops m n := by
  cases hgoes with
  | acts hstep =>
      rcases h.phase with ⟨hphase, hnow⟩ | hover
      · rw [step_stopped (hphase ▸ hopen) h.stopped] at hstep
        cases hstep
        refine ⟨?_, h.stopped, .inr (by rw [hnow])⟩
        rw [reading?_of_stopped h.stopped]
        exact h.readings
      · rw [hover] at hstep
        cases hstep
  | happens s hstop => exact ⟨h.readings, hstop h.stopped, h.phase⟩
  | passes now hle hwaits =>
      refine ⟨h.readings, h.stopped, .inr ?_⟩
      rcases h.phase with ⟨hphase, hnow⟩ | hover
      · have hstopped := hwaits.stopped (hphase ▸ hopen)
        rw [h.stopped] at hstopped
        cases hstopped
      · exact hover

theorem Stops.reaches (hopen : m.phase.Open) (h : t.stopped m.state = true)
    (hreaches : t.Reaches m m') : t.Stops m m' := by
  induction hreaches with
  | refl => exact ⟨rfl, h, .inl ⟨rfl, rfl⟩⟩
  | tail _ hgoes ih => exact ih.goes hopen hgoes

/-! ## Afterwards -/

/-- Once polling is over, nothing is looked at any more. -/
theorem rests {time : Nat} {outcome : Except Fault (Fetched κ)} (h : m.phase = .over time outcome)
    (hreaches : t.Reaches m m') : m'.phase = .over time outcome ∧ m'.readings = m.readings := by
  induction hreaches with
  | refl => exact ⟨h, rfl⟩
  | tail _ hgoes ih =>
      cases hgoes with
      | acts hstep =>
          rw [ih.1] at hstep
          cases hstep
      | happens s hstop => exact ih
      | passes now hle hwaits => exact ih

def Held (t : Setting κ σ) (now : Nat) : Phase κ → σ → Prop
  | .over .., _ => False
  | .watching p, s => t.stopped s = false ∧ t.repository.look p.watcher s = none
  | .sleeping wake _, s => t.stopped s = false ∧ now < wake

theorem held_of_step {now : Nat} {phase : Phase κ} {s : σ} (hopen : phase.Open)
    (h : t.step now phase s = none) : t.Held now phase s := by
  cases hstopped : t.stopped s with
  | true =>
      rw [step_stopped hopen hstopped] at h
      cases h
  | false =>
      cases phase with
      | «over» time outcome => exact hopen.elim
      | sleeping wake p =>
          rw [step_sleeping hstopped] at h
          split at h
          next => cases h
          next hwake => exact ⟨hstopped, Nat.lt_of_not_le hwake⟩
      | watching p =>
          rw [step_watching hstopped, Option.map_eq_none_iff] at h
          exact ⟨hstopped, h⟩

end Setting

end Confluence.Poll
