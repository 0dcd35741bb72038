import Confluence.Proofs.Document.Net
import Confluence.Proofs.Document.Rebasing

/-!
# Moving lists past each other

Two lists that lead from one document to two others can always be transformed, and what is left of
them leads both documents to one: a key that one side changed takes that side's value, and a key
that both changed takes the greater of the two values.
-/

namespace Confluence

namespace Operation

/-- The value of a key on which two sides have worked, from the value that both started with. -/
def resolve (base left right : Option String) : Option String :=
  if left = base then right
  else if right = base then left
  else if prevails left right then left
  else right

theorem resolve_left (base right : Option String) : resolve base base right = right := by
  simp [resolve]

theorem resolve_right (base left : Option String) : resolve base left base = left := by
  by_cases h : left = base
  · simp [resolve, h]
  · simp [resolve, h]

theorem resolve_comm (base left right : Option String) :
    resolve base left right = resolve base right left := by
  by_cases hl : left = base
  · rw [hl, resolve_left, resolve_right]
  · by_cases hr : right = base
    · rw [hr, resolve_left, resolve_right]
    · by_cases he : left = right
      · rw [he]
      · rcases prevails_total he with h | h
        · simp [resolve, hl, hr, h, prevails_asymm h]
        · simp [resolve, hl, hr, h, prevails_asymm h]

section

variable {l r : OrdMap String Change} {k : String} {c d : Change}

structure Clash (l r : OrdMap String Change) (k : String) (c d : Change) : Prop where
  left : l.get? k = some c
  right : r.get? k = some d
  ne : c.prev ≠ d.prev

theorem clash_of_visit {e : String × Change} {b : String × Change × Change} (he : e ∈ l.toList)
    (hb : mismatchAt? r e = some b) : b.1 = e.1 ∧ Clash l r b.1 b.2.1 b.2.2 := by
  obtain ⟨d, hd, hif⟩ := Option.bind_eq_some_iff.1 hb
  split at hif
  next => cases hif
  next hne =>
    cases hif
    exact ⟨rfl, OrdMap.get?_eq_some_iff.2 he, hd, hne⟩

theorem mismatch?_eq_none_iff : mismatch? l r = none ↔ ∀ k c d, ¬Clash l r k c d := by
  unfold mismatch?
  rw [List.findSome?_eq_none_iff]
  constructor
  · rintro h k c d ⟨hc, hd, hne⟩
    have hvisit := h (k, c) (OrdMap.get?_eq_some_iff.1 hc)
    rw [mismatchAt?, hd, Option.bind_some, if_neg hne] at hvisit
    cases hvisit
  · intro h e he
    exact Option.eq_none_iff_forall_ne_some.2 fun b hb => h _ _ _ (clash_of_visit he hb).2

end

end Operation

namespace Document.Leads

open Operation

variable {s a b : Document} {left right : List Operation}

/-- What is left of one side after the other side's document. -/
theorem get?_net_rebase (hl : Leads s left a) (hr : Leads s right b) (k : String) :
    (net (listOf (rebase (effect left) (effect right)))).get? k =
      if b.get? k = resolve (s.get? k) (a.get? k) (b.get? k) then none
      else some ⟨b.get? k, resolve (s.get? k) (a.get? k) (b.get? k)⟩ := by
  rw [get?_net_listOf, get?_rebase, hl.get?_effect, hr.get?_effect]
  by_cases ha : s.get? k = a.get? k
  · rw [if_pos ha, ha, resolve_left]
    simp
  · have ha' : ¬a.get? k = s.get? k := fun h => ha h.symm
    rw [if_neg ha]
    by_cases hb : s.get? k = b.get? k
    · rw [if_pos hb, ← hb, resolve_right, if_neg ha]
      simp [rebaseChange, Change.isNoop, ha]
    · have hb' : ¬b.get? k = s.get? k := fun h => hb h.symm
      rw [if_neg hb]
      by_cases hp : prevails (a.get? k) (b.get? k) = true
      · have hab : ¬b.get? k = a.get? k := by
          intro h
          rw [h, prevails_irrefl] at hp
          cases hp
        simp [resolve, rebaseChange, Change.isNoop, ha', hb', hp, hab]
      · simp [resolve, rebaseChange, ha', hb', hp]

/-- Two lists that start from one document transform into lists that meet in one document. -/
theorem transform (hl : Leads s left a) (hr : Leads s right b) :
    ∃ t m, Operation.transform left right = .ok t ∧ Leads b t.left m ∧ Leads a t.right m ∧
      ∀ k, m.get? k = resolve (s.get? k) (a.get? k) (b.get? k) := by
  have hnone : mismatch? (effect left) (effect right) = none := by
    refine mismatch?_eq_none_iff.2 ?_
    rintro k c d ⟨hc, hd, hne⟩
    rw [hl.get?_effect] at hc
    rw [hr.get?_effect] at hd
    split at hc <;> cases hc
    split at hd <;> cases hd
    exact hne rfl
  let m := b.applyAll (listOf (rebase (effect left) (effect right)))
  have hm (k : String) : m.get? k = resolve (s.get? k) (a.get? k) (b.get? k) := by
    rw [get?_applyAll, get?_net_rebase hl hr]
    split
    next h => rw [Change.after_none, ← h]
    next h => rw [Change.after_some]
  have ht : Operation.transform left right = .ok ⟨listOf (rebase (effect left) (effect right)),
      listOf (rebase (effect right) (effect left)), collides (effect left) (effect right)⟩ := by
    rw [transform_eq, hnone]
  refine ⟨_, m, ht, of_get?_net fun k => ?_, of_get?_net fun k => ?_, hm⟩
  · rw [hm]
    exact get?_net_rebase hl hr k
  · rw [hm, resolve_comm]
    exact get?_net_rebase hr hl k

end Document.Leads

end Confluence
