import Confluence.Document.Algebra
import Mathlib.Tactic.Common

/-!
# What transforming comes to

Transforming goes through the left side and uses up the right side, so the two sides do different
things in it. The result does not show this. After some changes of the left side each key that has
come up is settled by the two changes of it: what remains of either side is `rebaseChange`, applied
to one change and the other. At the end of the left side what remains of it is `rebase` of the left
side past the right one, and what remains of the right side is `rebase` of the right side past the
left one. `prevails` is a strict linear order on values, so at most one of two changes survives.
-/

namespace Confluence

open Std

namespace Operation

/-! ## Which value wins -/

theorem prevails_irrefl (v : Option String) : prevails v v = false := by
  cases v with
  | none => rfl
  | some a => simp [prevails, ReflCmp.compare_self]

theorem prevails_trans {u v w : Option String} (huv : prevails u v = true)
    (hvw : prevails v w = true) : prevails u w = true := by
  cases u <;> cases v <;> cases w <;> simp only [prevails, Bool.false_eq_true, beq_iff_eq] at *
  exact TransCmp.lt_trans hvw huv

theorem prevails_asymm {v w : Option String} (h : prevails v w = true) :
    prevails w v = false := by
  by_contra hn
  have hv : prevails v v = true := prevails_trans h (by simpa using hn)
  rw [prevails_irrefl] at hv
  cases hv

theorem prevails_total {v w : Option String} (h : v ≠ w) :
    prevails v w = true ∨ prevails w v = true := by
  cases v with
  | none =>
      cases w with
      | none => exact absurd rfl h
      | some b => exact .inr rfl
  | some a =>
      cases w with
      | none => exact .inl rfl
      | some b =>
          simp only [prevails, beq_iff_eq]
          have hne : compare a b ≠ .eq := fun e => h (congrArg some (LawfulEqCmp.eq_of_compare e))
          cases hc : compare a b with
          | lt => exact .inr rfl
          | eq => exact absurd hc hne
          | gt => exact .inl (OrientedCmp.lt_of_gt hc)

/-! ## One side past the other -/

/-- A change carried past the other side's change of its key. It survives only if its value
prevails, and then replaces the other side's value. -/
def rebaseChange (mine : Change) : Option Change → Option Change
  | none => some mine
  | some theirs =>
    if prevails mine.next theirs.next then some ⟨theirs.next, mine.next⟩ else none

def rebase (mine theirs : OrdMap String Change) : OrdMap String Change :=
  mine.filterMap fun k c => rebaseChange c (theirs.get? k)

def mismatchAt? (right : OrdMap String Change) (e : String × Change) :
    Option (String × Change × Change) :=
  (right.get? e.1).bind fun r => if e.2.prev = r.prev then none else some (e.1, e.2, r)

/-- The least key that both sides change from different values, with both changes. -/
def mismatch? (left right : OrdMap String Change) : Option (String × Change × Change) :=
  left.toList.findSome? (mismatchAt? right)

def collides (left right : OrdMap String Change) : Bool :=
  left.toList.any fun e => (right.get? e.1).any fun r => e.2.next != r.next

theorem get?_rebase (mine theirs : OrdMap String Change) (k : String) :
    (rebase mine theirs).get? k = (mine.get? k).bind fun c => rebaseChange c (theirs.get? k) :=
  OrdMap.get?_filterMap ..

theorem collides_iff {l r : OrdMap String Change} : collides l r = true ↔
    ∃ k c d, l.get? k = some c ∧ r.get? k = some d ∧ c.next ≠ d.next := by
  simp only [collides, List.any_eq_true, Option.any_eq_true, bne_iff_ne]
  constructor
  · rintro ⟨e, he, d, hd, hne⟩
    exact ⟨e.1, e.2, d, OrdMap.get?_eq_some_iff.2 he, hd, hne⟩
  · rintro ⟨k, c, d, hc, hd, hne⟩
    exact ⟨(k, c), OrdMap.get?_eq_some_iff.1 hc, d, hd, hne⟩

/-! ## Going through the left side -/

variable {right seen : OrdMap String Change} {s : Rebasing} {e : String × Change}

/-- What has been found out after the changes `seen` of the left side. -/
structure Rebased (right seen : OrdMap String Change) (s : Rebasing) : Prop where
  unmet : ∀ k, s.unmet.get? k = if (seen.get? k).isSome then none else right.get? k
  afterRight : ∀ k, s.afterRight.get? k =
    (seen.get? k).bind fun c => rebaseChange c (right.get? k)
  afterLeft : ∀ k, s.afterLeft.get? k =
    (seen.get? k).bind fun c => (right.get? k).bind fun d => rebaseChange d (some c)
  conflict : s.conflict = true ↔
    ∃ k c d, seen.get? k = some c ∧ right.get? k = some d ∧ c.next ≠ d.next

theorem rebased_start (right : OrdMap String Change) : Rebased right ∅ { unmet := right } := by
  constructor <;> simp

/-- A change that starts from another value than the right side's ends the walk. -/
theorem Rebased.step_of_mismatch (h : Rebased right seen s) (hnew : seen.get? e.1 = none)
    {b : String × Change × Change} (hb : mismatchAt? right e = some b) :
    rebaseStep s e = .error (disagreement b.1 b.2.1 b.2.2) := by
  obtain ⟨d, hd, hif⟩ := Option.bind_eq_some_iff.1 hb
  have hunmet : s.unmet.get? e.1 = some d := by simpa [hnew, hd] using h.unmet e.1
  split at hif
  next => cases hif
  next hne =>
    cases hif
    simp [rebaseStep, hunmet, hne]

/-- After one more change only its key has been settled anew. -/
theorem Rebased.insert (h : Rebased right seen s) (hnew : seen.get? e.1 = none) {t : Rebasing}
    (hunmet : ∀ k, t.unmet.get? k = if k = e.1 then none else s.unmet.get? k)
    (hright : ∀ k, t.afterRight.get? k =
      if k = e.1 then rebaseChange e.2 (right.get? e.1) else s.afterRight.get? k)
    (hleft : ∀ k, t.afterLeft.get? k =
      if k = e.1 then (right.get? e.1).bind fun d => rebaseChange d (some e.2)
      else s.afterLeft.get? k)
    (hconflict : t.conflict = true ↔
      s.conflict = true ∨ ∃ d, right.get? e.1 = some d ∧ e.2.next ≠ d.next) :
    Rebased right (seen.insert e.1 e.2) t := by
  constructor
  · intro k
    rw [hunmet, OrdMap.get?_insert]
    split
    next => rfl
    next => rw [h.unmet]
  · intro k
    rw [hright, OrdMap.get?_insert]
    split
    next hk => rw [hk, Option.bind_some]
    next => rw [h.afterRight]
  · intro k
    rw [hleft, OrdMap.get?_insert]
    split
    next hk => rw [hk, Option.bind_some]
    next => rw [h.afterLeft]
  · rw [hconflict, h.conflict]
    constructor
    · rintro (⟨k, c, d, hc, hd, hne⟩ | ⟨d, hd, hne⟩)
      · have hk : k ≠ e.1 := by
          rintro rfl
          rw [hnew] at hc
          cases hc
        exact ⟨k, c, d, by rw [OrdMap.get?_insert, if_neg hk, hc], hd, hne⟩
      · exact ⟨e.1, e.2, d, OrdMap.get?_insert_self .., hd, hne⟩
    · rintro ⟨k, c, d, hc, hd, hne⟩
      rw [OrdMap.get?_insert] at hc
      split at hc
      next hk =>
        cases hc
        exact .inr ⟨d, hk ▸ hd, hne⟩
      next => exact .inl ⟨k, c, d, hc, hd, hne⟩

/-- A change that the right side does not meet is made as it is. -/
theorem Rebased.step_of_free (h : Rebased right seen s) (hnew : seen.get? e.1 = none)
    (hd : right.get? e.1 = none) :
    ∃ t, rebaseStep s e = .ok t ∧ Rebased right (seen.insert e.1 e.2) t := by
  have hunmet : s.unmet.get? e.1 = none := by simpa [hnew, hd] using h.unmet e.1
  have hleft : s.afterLeft.get? e.1 = none := by rw [h.afterLeft, hnew, Option.bind_none]
  refine ⟨_, by rw [rebaseStep, hunmet], h.insert hnew (fun k => ?_) (fun k => ?_)
    (fun k => ?_) ?_⟩
  · split
    next hk => rw [hk, hunmet]
    next => rfl
  · rw [OrdMap.get?_insert, hd, rebaseChange]
  · split
    next hk => rw [hk, hleft, hd, Option.bind_none]
    next => rfl
  · simp [hd]

/-- Of two changes that start from one value the one whose value prevails is made after the other,
and neither if they end on one value. -/
theorem Rebased.step_of_met (h : Rebased right seen s) (hnew : seen.get? e.1 = none) {d : Change}
    (hd : right.get? e.1 = some d) (hprev : e.2.prev = d.prev) :
    ∃ t, rebaseStep s e = .ok t ∧ Rebased right (seen.insert e.1 e.2) t := by
  have hunmet : s.unmet.get? e.1 = some d := by simpa [hnew, hd] using h.unmet e.1
  have hright : s.afterRight.get? e.1 = none := by rw [h.afterRight, hnew, Option.bind_none]
  have hleft : s.afterLeft.get? e.1 = none := by rw [h.afterLeft, hnew, Option.bind_none]
  have herase (k : String) : (s.unmet.erase e.1).get? k =
      if k = e.1 then none else s.unmet.get? k := OrdMap.get?_erase ..
  by_cases hnext : e.2.next = d.next
  · refine ⟨{ s with unmet := s.unmet.erase e.1 }, by simp [rebaseStep, hunmet, hprev, hnext],
      h.insert hnew herase (fun k => ?_) (fun k => ?_) ?_⟩
    · split
      next hk => simp [hk, hright, hd, rebaseChange, hnext, prevails_irrefl]
      next => rfl
    · split
      next hk => simp [hk, hleft, hd, rebaseChange, hnext, prevails_irrefl]
      next => rfl
    · simp [hd, hnext]
  · by_cases hp : prevails e.2.next d.next = true
    · have hp' := prevails_asymm hp
      refine ⟨_, by simp [rebaseStep, hunmet, hprev, hnext, hp]; rfl,
        h.insert hnew herase (fun k => ?_) (fun k => ?_) ?_⟩
      · rw [OrdMap.get?_insert, hd, rebaseChange, if_pos hp]
      · split
        next hk => simp [hk, hleft, hd, rebaseChange, hp']
        next => rfl
      · simp [hd, hnext]
    · have hp' := (prevails_total hnext).resolve_left hp
      refine ⟨_, by simp [rebaseStep, hunmet, hprev, hnext, hp]; rfl,
        h.insert hnew herase (fun k => ?_) (fun k => ?_) ?_⟩
      · split
        next hk => simp [hk, hright, hd, rebaseChange, hp]
        next => rfl
      · rw [OrdMap.get?_insert, hd, Option.bind_some, rebaseChange, if_pos hp']
      · simp [hd, hnext]

theorem Rebased.step (h : Rebased right seen s) (hnew : seen.get? e.1 = none)
    (hagree : mismatchAt? right e = none) :
    ∃ t, rebaseStep s e = .ok t ∧ Rebased right (seen.insert e.1 e.2) t := by
  cases hd : right.get? e.1 with
  | none => exact h.step_of_free hnew hd
  | some d =>
      refine h.step_of_met hnew hd ?_
      by_contra hne
      simp [mismatchAt?, hd, hne] at hagree

/-- A walk through changes with ascending keys ends at the first that starts from another value than
the right side's, or has seen them all. -/
theorem Rebased.foldlM {l : List (String × Change)} (h : Rebased right seen s)
    (hl : l.Pairwise fun a b => compare a.1 b.1 = .lt) (hnew : ∀ e ∈ l, seen.get? e.1 = none) :
    (∀ b, l.findSome? (mismatchAt? right) = some b →
        l.foldlM rebaseStep s = .error (disagreement b.1 b.2.1 b.2.2)) ∧
      (l.findSome? (mismatchAt? right) = none →
        ∃ t, l.foldlM rebaseStep s = .ok t ∧ Rebased right (seen.insertMany l) t) := by
  induction l generalizing s seen with
  | nil =>
      refine ⟨?_, fun _ => ⟨s, rfl, h⟩⟩
      rintro b ⟨⟩
  | cons e l ih =>
      rw [List.pairwise_cons] at hl
      have hfirst : seen.get? e.1 = none := hnew e List.mem_cons_self
      rw [List.findSome?_cons, List.foldlM_cons]
      cases hm : mismatchAt? right e with
      | some b =>
          rw [h.step_of_mismatch hfirst hm]
          refine ⟨?_, fun hn => by cases hn⟩
          rintro _ ⟨⟩
          rfl
      | none =>
          obtain ⟨t, ht, hstep⟩ := h.step hfirst hm
          rw [ht]
          refine ih hstep hl.2 fun a ha => ?_
          have hne : a.1 ≠ e.1 := by
            intro heq
            have hlt := hl.1 a ha
            simp [heq, ReflCmp.compare_self] at hlt
          rw [OrdMap.get?_insert_of_ne _ _ hne]
          exact hnew a (List.mem_cons_of_mem e ha)

/-! ## The whole walk -/

/-- Transforming fails on the least key that both sides change from different values, and otherwise
carries each side past the other. -/
theorem transform_eq (left right : List Operation) : transform left right =
    match mismatch? (effect left) (effect right) with
    | some b => .error (disagreement b.1 b.2.1 b.2.2)
    | none => .ok ⟨listOf (rebase (effect left) (effect right)),
        listOf (rebase (effect right) (effect left)), collides (effect left) (effect right)⟩ := by
  obtain ⟨herror, hok⟩ :=
    (rebased_start (effect right)).foldlM (effect left).ascending fun e _ => OrdMap.get?_empty e.1
  unfold transform mismatch?
  split
  next b hb =>
    rw [herror b hb]
    rfl
  next hn =>
    obtain ⟨t, ht, h⟩ := hok hn
    rw [show (∅ : OrdMap String Change).insertMany (effect left).toList = effect left from
      OrdMap.ofList_toList _] at h
    have hright : t.afterRight = rebase (effect left) (effect right) := by
      refine OrdMap.ext fun k => ?_
      rw [h.afterRight, get?_rebase]
    have hleft : t.afterLeft.insertMany t.unmet.toList = rebase (effect right) (effect left) := by
      refine OrdMap.ext fun k => ?_
      rw [OrdMap.get?_insertMany_toList, h.unmet, h.afterLeft, get?_rebase]
      cases (effect left).get? k with
      | none => cases (effect right).get? k <;> rfl
      | some c => rfl
    have hconflict : t.conflict = collides (effect left) (effect right) := by
      rw [Bool.eq_iff_iff, h.conflict, collides_iff]
    rw [ht, ← hright, ← hleft, ← hconflict]
    rfl

end Operation

end Confluence
