import Confluence.Node.Poll

/-!
# What a look leads to

What polling does after a look depends on the looks before it, which are listed here with the last
one first: on the number of failures in a row, and on the heads that were found last. Polling
remembers just these two, so `react` can be stated on the list instead.
-/

namespace Confluence.Poll

variable {κ : Type} [CommitId κ] {settings : NodeSettings} {current : κ}

abbrev Look (κ : Type) [CommitId κ] := Except Fault (OrdSet κ)

def failing : List (Look κ) → Nat
  | [] => 0
  | .ok _ :: _ => 0
  | .error e :: past => if e.isTransient then failing past + 1 else 0

/-- The heads at the last look that has found any, whatever failed after it. -/
def lastHeads : List (Look κ) → Option (OrdSet κ)
  | [] => none
  | .ok heads :: _ => some heads
  | .error _ :: past => lastHeads past

/-- The looks that end polling: the heads are without the current commit, the failure is one that
does not pass, or it completes the greatest number of failures in a row. -/
inductive Ends (settings : NodeSettings) (current : κ) (past : List (Look κ)) : Look κ → Prop where
  | news {heads : OrdSet κ} (h : current ∉ heads) : Ends settings current past (.ok heads)
  | permanent {e : Fault} (h : e.isTransient = false) : Ends settings current past (.error e)
  | exhausted {e : Fault} (htransient : e.isTransient = true)
      (hcount : failing past + 1 = settings.retry.maxAttempts) :
      Ends settings current past (.error e)

def Lasts (settings : NodeSettings) (current : κ) : List (Look κ) → Prop
  | [] => True
  | o :: past => ¬ Ends settings current past o ∧ Lasts settings current past

/-- The wait after a look: a delay that depends on the failures in a row, the poll interval if the
heads are those found last, and none otherwise. -/
def pause (settings : NodeSettings) (past : List (Look κ)) : Look κ → Nat
  | .ok heads => if lastHeads past = some heads then settings.pollInterval else 0
  | .error _ => settings.retry.delayFor (failing past + 1)

def waited (settings : NodeSettings) : List (Look κ) → Nat
  | [] => 0
  | o :: past => waited settings past + pause settings past o

/-! ## How many failures have been allowed -/

theorem Ends.not_ok_iff {past : List (Look κ)} {heads : OrdSet κ} :
    ¬ Ends settings current past (.ok heads) ↔ current ∈ heads := by
  constructor
  · intro h
    exact Classical.byContradiction fun hnew => h (.news hnew)
  · intro h hends
    cases hends with
    | news hnew => exact hnew h

theorem Ends.not_error_iff {past : List (Look κ)} {e : Fault} :
    ¬ Ends settings current past (.error e) ↔
      e.isTransient = true ∧ failing past + 1 ≠ settings.retry.maxAttempts := by
  constructor
  · intro h
    have htransient : e.isTransient = true := by
      cases htransient : e.isTransient with
      | true => rfl
      | false => exact absurd (.permanent htransient) h
    exact ⟨htransient, fun hcount => h (.exhausted htransient hcount)⟩
  · intro h hends
    cases hends with
    | permanent hpermanent => simp [h.1] at hpermanent
    | exhausted _ hcount => exact h.2 hcount

theorem failing_lt {past : List (Look κ)} (h : Lasts settings current past)
    (hbound : settings.retry.maxAttempts ≠ 0) : failing past < settings.retry.maxAttempts := by
  induction past with
  | nil => exact Nat.pos_of_ne_zero hbound
  | cons o past ih =>
      cases o with
      | ok heads => exact Nat.pos_of_ne_zero hbound
      | error e =>
          have hgoes := Ends.not_error_iff.1 h.1
          have hcount := ih h.2
          rw [failing, if_pos hgoes.1]
          omega

theorem allows_iff {past : List (Look κ)} (h : Lasts settings current past) :
    settings.retry.allows (failing past + 1) = true ↔
      failing past + 1 ≠ settings.retry.maxAttempts := by
  have hlt := failing_lt h
  simp only [RetryPolicy.allows, Bool.or_eq_true, decide_eq_true_eq]
  omega

/-! ## The reaction -/

def memory (w : Watcher) (past : List (Look κ)) : Poll κ := ⟨w, failing past, lastHeads past⟩

def ending : Look κ → Reaction κ
  | .ok heads => .fetch heads
  | .error e => .fail e

theorem react_of_ends {w : Watcher} {past : List (Look κ)} {o : Look κ}
    (hpast : Lasts settings current past) (h : Ends settings current past o) :
    react settings current (memory w past) o = ending o := by
  cases h with
  | news hnew => exact if_neg (mt OrdSet.contains_iff_mem.1 hnew)
  | permanent hpermanent => simp [react, ending, hpermanent]
  | exhausted htransient hcount =>
      have hallows : settings.retry.allows (failing past + 1) ≠ true := by
        rw [ne_eq, allows_iff hpast]
        exact fun hne => hne hcount
      exact if_neg fun hand => hallows (Bool.and_eq_true_iff.1 hand).2

theorem react_of_not_ends {w : Watcher} {past : List (Look κ)} {o : Look κ}
    (hpast : Lasts settings current past) (h : ¬ Ends settings current past o) :
    react settings current (memory w past) o =
      .look (pause settings past o) (memory w (o :: past)) := by
  cases o with
  | ok heads => exact if_pos (OrdSet.contains_iff_mem.2 (Ends.not_ok_iff.1 h))
  | error e =>
      have hgoes := Ends.not_error_iff.1 h
      have hallows := (allows_iff hpast).2 hgoes.2
      simp only [react, memory, failing, lastHeads, pause, hgoes.1, hallows, Bool.and_self,
        if_true]

end Confluence.Poll
