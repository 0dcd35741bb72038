import Confluence.Proofs.Node.Polling
import Confluence.Repository.Store

/-!
# Polling on the clock that jumps

`advance` has the clock and the repository to itself, so what it plays is one of the courses of
polling. Here polling comes to its end: the looks that do not end it take three steps each at most
and just the time of the waits between them, and then the first look that ends it gives the outcome.
A repository can be made to let looks find any list of outcomes.
-/

namespace Confluence.Poll

variable {κ σ : Type} [CommitId κ]

namespace Setting

variable {t : Setting κ σ} {start : Nat}

/-! ## Steps of the clock -/

section

variable {deadline fuel now wake time : Nat} {phase phase' : Phase κ} {p : Poll κ} {s s' : σ}
  {outcome : Except Fault (Fetched κ)}

theorem advance_of_step (h : t.step now phase s = some (phase', s')) :
    t.advance deadline (fuel + 1) now phase s = t.advance deadline fuel now phase' s' := by
  cases phase <;> simp only [advance, h]

theorem advance_sleeping (h : t.step now (.sleeping wake p) s = none) :
    t.advance deadline (fuel + 1) now (.sleeping wake p) s =
      if wake ≤ deadline then t.advance deadline fuel wake (.sleeping wake p) s
      else (.sleeping wake p, s) := by
  simp only [advance, h]

theorem advance_watching (h : t.step now (.watching p) s = none) :
    t.advance deadline fuel now (.watching p) s = (.watching p, s) := by
  cases fuel with
  | zero => rfl
  | succ fuel => simp only [advance, h]

theorem advance_over : t.advance deadline fuel now (.over time outcome) s =
    (.over time outcome, s) := by
  cases fuel with
  | zero => rfl
  | succ fuel => rfl

end

/-- Polling that has the clock and the repository to itself takes such a course. -/
theorem reaches_advance (deadline fuel : Nat) (m : Moment κ σ) : ∃ m', t.Reaches m m' ∧
    t.advance deadline fuel m.now m.phase m.state = (m'.phase, m'.state) := by
  induction fuel generalizing m with
  | zero => exact ⟨m, .refl, rfl⟩
  | succ fuel ih =>
      cases hstep : t.step m.now m.phase m.state with
      | some x =>
          rcases x with ⟨phase, s⟩
          rw [advance_of_step hstep]
          rcases ih ⟨m.now, phase, s, m.now, (t.reading? m).toList ++ m.readings⟩ with
            ⟨m', hreaches, hadvance⟩
          exact ⟨m', .head (.acts hstep) hreaches, hadvance⟩
      | none =>
          rcases m with ⟨now, phase, s, since, readings⟩
          cases phase with
          | «over» time outcome => exact ⟨_, .refl, advance_over⟩
          | watching p => exact ⟨_, .refl, advance_watching hstep⟩
          | sleeping wake p =>
              have hopen : (Phase.sleeping wake p).Open := trivial
              have hheld := held_of_step hopen hstep
              rw [advance_sleeping hstep]
              split
              next =>
                rcases ih ⟨wake, .sleeping wake p, s, since, readings⟩ with ⟨m', hreaches, hadvance⟩
                have hpasses : t.Goes ⟨now, .sleeping wake p, s, since, readings⟩
                    ⟨wake, .sleeping wake p, s, since, readings⟩ :=
                  .passes wake (Nat.le_of_lt hheld.2) ⟨hheld.1, Nat.le_refl wake⟩
                exact ⟨m', .head hpasses hreaches, hadvance⟩
              next => exact ⟨_, .refl, rfl⟩

/-- Looks one after another, with nobody else at the repository and no word to stop, find these
outcomes, the last one first. -/
inductive Finds (t : Setting κ σ) (s : σ) : List (Look κ) → Watcher → σ → Prop where
  | nil : Finds t s [] {} s
  | cons {past : List (Look κ)} {w w' : Watcher} {o : Look κ} {before after : σ}
      (hpast : Finds t s past w before) (h : t.stopped before = false)
      (hlook : t.repository.look w before = some (o, w', after)) : Finds t s (o :: past) w' after

/-- A wait takes one step of the clock at most. -/
theorem exists_advance_sleeping {deadline now wake : Nat} {s : σ} (fuel : Nat) (p : Poll κ)
    (h : t.stopped s = false) (hnow : now ≤ wake) (hdeadline : wake ≤ deadline) :
    ∃ fuel', fuel ≤ fuel' ∧ t.advance deadline (fuel + 2) now (.sleeping wake p) s =
      t.advance deadline fuel' wake (.watching p) s := by
  have hawake : t.step wake (.sleeping wake p) s = some (.watching p, s) := by
    rw [step_sleeping h, if_pos (Nat.le_refl wake)]
  rcases Nat.eq_or_lt_of_le hnow with rfl | hearly
  · exact ⟨fuel + 1, Nat.le_succ fuel, advance_of_step hawake⟩
  · have hasleep : t.step now (.sleeping wake p) s = none := by
      rw [step_sleeping h, if_neg (Nat.not_le_of_lt hearly)]
    refine ⟨fuel, Nat.le_refl fuel, ?_⟩
    rw [advance_sleeping hasleep, if_pos hdeadline, advance_of_step hawake]

/-- Looks that do not end polling take three steps each at most. -/
theorem Finds.exists_advance {s after : σ} {past : List (Look κ)} {w : Watcher}
    (h : t.Finds s past w after) (hstopped : t.stopped after = false)
    (hpast : Lasts t.settings t.current past) {deadline : Nat}
    (hdeadline : start + waited t.settings past ≤ deadline) (fuel : Nat) :
    ∃ fuel', fuel ≤ fuel' ∧
      t.advance deadline (fuel + 3 * past.length) start (.watching {}) s =
        t.advance deadline fuel' (start + waited t.settings past) (.watching (memory w past))
          after := by
  induction h generalizing fuel with
  | nil => exact ⟨fuel, Nat.le_refl fuel, rfl⟩
  | @cons past w w' o before after hfinds hgoes hlook ih =>
      have hwaited : waited t.settings (o :: past) =
          waited t.settings past + pause t.settings past o := rfl
      -- three steps are put aside: one for the look, two for the wait after it
      rcases ih hgoes hpast.2 (by omega) (fuel + 3) with ⟨rest, hrest, hadvance⟩
      obtain ⟨fewer, rfl⟩ : ∃ fewer, rest = fuel + fewer + 3 := ⟨rest - (fuel + 3), by omega⟩
      have hstep : t.step (start + waited t.settings past) (.watching (memory w past)) before =
          some (.sleeping (start + waited t.settings past + pause t.settings past o)
            (memory w' (o :: past)), after) :=
        step_lasting hgoes hlook hpast.2 hpast.1
      have hnow : start + waited t.settings past ≤
          start + waited t.settings past + pause t.settings past o := Nat.le_add_right _ _
      have hwake : start + waited t.settings past + pause t.settings past o ≤ deadline := by omega
      rcases exists_advance_sleeping (fuel + fewer) (memory w' (o :: past)) hstopped hnow hwake with
        ⟨fuel', hfuel, hsleep⟩
      refine ⟨fuel', by omega, ?_⟩
      rw [List.length_cons, Nat.mul_succ, ← Nat.add_assoc, Nat.add_right_comm, hadvance,
        advance_of_step hstep, hsleep, hwaited, Nat.add_assoc]

/-- The first look that ends polling gives the outcome, after all the waits before it. -/
theorem Finds.advance_eq {s before after : σ} {past : List (Look κ)} {w w' : Watcher} {o : Look κ}
    (h : t.Finds s past w before) (hpast : Lasts t.settings t.current past)
    (hstopped : t.stopped before = false)
    (hlook : t.repository.look w before = some (o, w', after))
    (ho : Ends t.settings t.current past o) {deadline fuel : Nat}
    (hdeadline : start + waited t.settings past ≤ deadline) (hfuel : 3 * past.length < fuel) :
    t.advance deadline fuel start (.watching {}) s =
      (.over (start + waited t.settings past) (t.result o after).1, (t.result o after).2) := by
  obtain ⟨more, rfl⟩ : ∃ more, fuel = more + 1 + 3 * past.length :=
    ⟨fuel - 3 * past.length - 1, by omega⟩
  rcases h.exists_advance hstopped hpast hdeadline (more + 1) with ⟨rest, hrest, hadvance⟩
  obtain ⟨fewer, rfl⟩ : ∃ fewer, rest = fewer + 1 := ⟨rest - 1, by omega⟩
  rw [hadvance, advance_of_step (step_ending hstopped hlook hpast ho), advance_over]

/-! ## Any list of outcomes -/

/-- A repository around another one that lets looks find given outcomes, one after another. -/
def feed {τ : Type} (inner : Repository κ τ) : Repository κ (List (Look κ) × τ) where
  announced := none
  answer
    | .activeHeads, (o :: rest, u) => (o, rest, u)
    | r, (rest, u) =>
      let (a, u) := inner.answer r u
      (a, rest, u)

def fed {τ : Type} (inner : Repository κ τ) (settings : NodeSettings) (current : κ) :
    Setting κ (List (Look κ) × τ) :=
  ⟨feed inner, settings, current, fun _ => false⟩

theorem look_feed {τ : Type} (inner : Repository κ τ) (w : Watcher) (o : Look κ)
    (rest : List (Look κ)) (u : τ) :
    (feed inner).look w (o :: rest, u) = some (o, w, (rest, u)) := rfl

theorem finds_fed {τ : Type} (inner : Repository κ τ) (settings : NodeSettings) (current : κ)
    (past rest : List (Look κ)) (u : τ) :
    (fed inner settings current).Finds (past.reverse ++ rest, u) past {} (rest, u) := by
  induction past generalizing rest with
  | nil => exact .nil
  | cons o past ih =>
      rw [List.reverse_cons, List.append_assoc]
      exact .cons (ih (o :: rest)) rfl (look_feed inner {} o rest u)

/-! ## All together -/

structure Conduct (t : Setting κ σ) (start : Nat) (s : σ) : Prop where
  /-- Whatever happens: each look comes when it is due, and the first one that ends polling gives
  the outcome. -/
  account : ∀ m, t.Reaches (begun start s) m → t.Account start m
  /-- Nothing is looked at afterwards. -/
  rests : ∀ m m' time outcome, m.phase = .over time outcome → t.Reaches m m' →
    m'.phase = .over time outcome ∧ m'.readings = m.readings
  /-- Only a look that has not found anything yet or a wait holds polling up. -/
  held : ∀ now phase s, phase.Open → t.step now phase s = none → t.Held now phase s
  /-- A node that has been told to stop does so at once and looks at nothing more. -/
  stops : ∀ m : Moment κ σ, m.phase.Open → t.stopped m.state = true →
    t.step m.now m.phase m.state = some (.over m.now (.error .stopped), m.state) ∧
      ∀ m', t.Reaches m m' → t.Stops m m'
  /-- What polling does on its own is such a course. -/
  course : ∀ deadline fuel, ∃ m, t.Reaches (begun start s) m ∧
    t.advance deadline fuel start (.watching {}) s = (m.phase, m.state)
  /-- On its own polling ends with the first look that ends it, after the waits before it. -/
  returns : ∀ past w before o w' after, t.Finds s past w before →
    Lasts t.settings t.current past → t.stopped before = false →
    t.repository.look w before = some (o, w', after) → Ends t.settings t.current past o →
    ∀ deadline fuel, start + waited t.settings past ≤ deadline → 3 * past.length < fuel →
      t.advance deadline fuel start (.watching {}) s =
        (.over (start + waited t.settings past) (t.result o after).1, (t.result o after).2)
  /-- Without a greatest number no failures in a row are too many. -/
  endless : t.settings.retry.maxAttempts = 0 → ∀ past e, e.isTransient = true →
    ¬ Ends t.settings t.current past (.error e)

theorem conduct (t : Setting κ σ) (start : Nat) (s : σ) : t.Conduct start s where
  account _ h := (account_begun t start s).reaches h
  rests _ _ _ _ := Setting.rests
  held _ _ _ := held_of_step
  stops _ hopen h := ⟨step_stopped hopen h, fun _ hreaches => .reaches hopen h hreaches⟩
  course deadline fuel := reaches_advance deadline fuel (begun start s)
  returns _ _ _ _ _ _ h hpast hstopped hlook ho _ _ hdeadline hfuel :=
    h.advance_eq hpast hstopped hlook ho hdeadline hfuel
  endless hbound _ _ htransient :=
    Ends.not_error_iff.2 ⟨htransient, hbound ▸ Nat.succ_ne_zero _⟩

/-- A failure, the heads of before, another failure and the same heads again: polling waits for a
delay, not at all, for a delay and for the poll interval, and then fetches the news. The last of the
outcomes is not looked at. -/
theorem conduct_recovering :
    let rule := IdRule.sequential 1
    let store := (Store.empty.answer rule
      (.push [⟨1, ∅, 1, 0, none⟩, ⟨2, .single 1 [], 2, 0, none⟩])).2
    let t := fed (Store.repository rule) {} 1
    let busy : Look UInt64 := .error (.storage "busy")
    let same : Look UInt64 := .ok (.single 1)
    let delay := t.settings.retry.delayFor 1
    ∀ deadline, delay + delay + 100 ≤ deadline →
      t.advance deadline 13 0 (.watching {})
          ([busy, same, busy, same, .ok (.single 2), same], store) =
        (.over (delay + delay + 100) (.ok ⟨2, 2, []⟩), ([same], store)) := by
  intro rule store t busy same delay deadline hdeadline
  let past := [same, busy, same, busy]
  have hsame (past : List (Look UInt64)) : ¬ Ends t.settings t.current past same :=
    Ends.not_ok_iff.2 (OrdSet.mem_single.2 rfl)
  have hbusy (past : List (Look UInt64)) (h : failing past = 0) :
      ¬ Ends t.settings t.current past busy :=
    Ends.not_error_iff.2 ⟨rfl, by rw [h]; decide⟩
  have hpast : Lasts t.settings t.current past :=
    ⟨hsame _, hbusy _ rfl, hsame _, hbusy _ rfl, trivial⟩
  have hends : Ends t.settings t.current past (.ok (.single 2)) :=
    .news (mt OrdSet.mem_single.1 (by decide))
  have hfirst : pause t.settings [busy] same = 0 := by decide
  have hagain : pause t.settings [busy, same, busy] same = 100 := by decide
  have hwaited : 0 + waited t.settings past = delay + delay + 100 := by
    change 0 + (0 + delay + pause t.settings [busy] same + delay +
      pause t.settings [busy, same, busy] same) = _
    rw [hfirst, hagain]
    omega
  have hresult : t.result (.ok (.single 2)) ([same], store) =
    (.ok ⟨2, 2, []⟩, ([same], store)) := by rfl
  have hfinds := finds_fed (Store.repository rule) t.settings t.current past
    [.ok (.single 2), same] store
  have hlook := look_feed (Store.repository rule) {} (.ok (.single 2)) [same] store
  have hreturns := (conduct t 0 _).returns past {} _ (.ok (.single 2)) {} _ hfinds hpast rfl hlook
    hends deadline 13 (by omega) (by decide)
  rw [hwaited, hresult] at hreturns
  exact hreturns

end Setting

end Confluence.Poll
