import Confluence.Proofs.Document.Transform
import Mathlib.Data.List.Induction

/-!
# Transforming any two lists

Whether two lists start from one document or not, transforming them looks at one thing only: how
each moves the keys, from the value that its first change of the key expects to the one that its
last change leaves. It fails if both lists move a key from different values, and names the least
such key. Neither side is preferred, so the sides may be exchanged, and each may be squashed before.
-/

namespace Confluence

open Change Std Text

namespace Operation

/-! ## How a list moves the keys -/

section

variable {l : List Operation} {k : String} {v w : Option String}

def lastChange? (l : List Operation) (k : String) : Option Change := firstChange? l.reverse k

theorem map_next_net (l : List Operation) (k : String) :
    ((net l).get? k).map Change.next = (lastChange? l k).map Change.next := by
  induction l using List.reverseRecOn with
  | nil => rfl
  | append_singleton l o ih =>
      rw [get?_net_append, get?_net_singleton, lastChange?, List.reverse_concat, firstChange?,
        List.findSome?_cons]
      cases o.changes.get? k with
      | none =>
          rw [chain_none_right, ih]
          rfl
      | some c => cases (net l).get? k <;> rfl

/-- A list moves a key from one value to another: its first change of the key expects the one, and
its last change leaves the other. -/
structure Moves (l : List Operation) (k : String) (v w : Option String) : Prop where
  first : (firstChange? l k).map Change.prev = some v
  last : (lastChange? l k).map Change.next = some w
  ne : v ≠ w

theorem moves_iff : Moves l k v w ↔ (effect l).get? k = some ⟨v, w⟩ := by
  have hmoves : Moves l k v w ↔ ((net l).get? k).map Change.prev = some v ∧
      ((net l).get? k).map Change.next = some w ∧ v ≠ w := by
    rw [map_prev_net, map_next_net]
    exact ⟨fun h => ⟨h.first, h.last, h.ne⟩, fun ⟨hv, hw, hne⟩ => ⟨hv, hw, hne⟩⟩
  rw [hmoves, get?_effect]
  cases (net l).get? k with
  | none => simp
  | some c =>
      obtain ⟨a, b⟩ := c
      simp only [Option.map_some, Option.some.injEq, Option.filter_eq_some_iff, Change.mk.injEq,
        Change.isNoop, Bool.not_eq_true', beq_eq_false_iff_ne]
      constructor
      · rintro ⟨rfl, rfl, hne⟩
        exact ⟨⟨rfl, rfl⟩, hne⟩
      · rintro ⟨⟨rfl, rfl⟩, hne⟩
        exact ⟨rfl, rfl, hne⟩

end

/-! ## Maps of changes -/

section

variable {l r m n : OrdMap String Change} {k : String} {c d : Change}

/-- Entries are visited in the order of their keys, so the clash of the least key is found. -/
theorem clash_of_mismatch? (h : mismatch? l r = some (k, c, d)) :
    Clash l r k c d ∧ ∀ j a b, Clash l r j a b → compare j k ≠ .lt := by
  obtain ⟨before, e, after, hl, he, hbefore⟩ := List.findSome?_eq_some_iff.1 h
  have hmem : e ∈ l.toList := hl ▸ List.mem_append_right _ List.mem_cons_self
  obtain ⟨hk, hclash⟩ := clash_of_visit hmem he
  refine ⟨hclash, ?_⟩
  rintro j a b ⟨ha, hb, hne⟩ hlt
  have hascending := hl ▸ l.ascending
  have hj : (j, a) ∈ before ++ e :: after := hl ▸ OrdMap.get?_eq_some_iff.1 ha
  rcases List.mem_append.1 hj with hj | hj
  · have hnone := hbefore _ hj
    rw [mismatchAt?, hb, Option.bind_some, if_neg hne] at hnone
    cases hnone
  · have hge : compare e.1 j ≠ .gt := by
      rcases List.mem_cons.1 hj with rfl | hj
      · simp [ReflCmp.compare_self]
      · simp [(List.pairwise_cons.1 (List.pairwise_append.1 hascending).2.1).1 _ hj]
    exact hge (hk ▸ OrientedCmp.gt_of_lt hlt)

theorem mismatch?_eq_some_iff : mismatch? l r = some (k, c, d) ↔
    Clash l r k c d ∧ ∀ j a b, Clash l r j a b → compare j k ≠ .lt := by
  refine ⟨clash_of_mismatch?, ?_⟩
  rintro ⟨hclash, hleast⟩
  cases hm : mismatch? l r with
  | none => exact absurd hclash (mismatch?_eq_none_iff.1 hm k c d)
  | some b =>
      obtain ⟨j, c', d'⟩ := b
      obtain ⟨hclash', hleast'⟩ := clash_of_mismatch? hm
      have hjk : j = k := by
        cases hcmp : compare j k with
        | lt => exact absurd hcmp (hleast _ _ _ hclash')
        | eq => exact LawfulEqCmp.eq_of_compare hcmp
        | gt => exact absurd (OrientedCmp.lt_of_gt hcmp) (hleast' _ _ _ hclash)
      subst hjk
      cases hclash.left.symm.trans hclash'.left
      cases hclash.right.symm.trans hclash'.right
      rfl

theorem collides_comm (l r : OrdMap String Change) : collides l r = collides r l := by
  have himp {l r : OrdMap String Change} (h : collides l r = true) : collides r l = true := by
    obtain ⟨k, c, d, hc, hd, hne⟩ := collides_iff.1 h
    exact collides_iff.2 ⟨k, d, c, hd, hc, hne.symm⟩
  exact Bool.eq_iff_iff.2 ⟨himp, himp⟩

/-- The list of a map holds no no-op, so squashing finds nothing to leave out. -/
theorem squash_listOf (m : OrdMap String Change) : squash (listOf m) = listOf m := by
  have hfilter : ((net (listOf m)).filter fun _ c => !c.isNoop) =
      m.filter fun _ c => !c.isNoop := by
    refine OrdMap.ext fun k => ?_
    rw [OrdMap.get?_filter, OrdMap.get?_filter, get?_net_listOf, Option.filter_filter]
    simp
  rw [squash, listOf, hfilter, listOf]

end

/-! ## Transforming -/

section

variable {left right : List Operation} {k : String} {v v' : Option String} {t : Transformation}

structure Disputed (left right : List Operation) (k : String) (v v' : Option String) : Prop where
  left : ∃ w, Moves left k v w
  right : ∃ w, Moves right k v' w
  ne : v ≠ v'

theorem disputed_iff : Disputed left right k v v' ↔
    ∃ w w', Clash (effect left) (effect right) k ⟨v, w⟩ ⟨v', w'⟩ := by
  constructor
  · rintro ⟨⟨w, hl⟩, ⟨w', hr⟩, hne⟩
    exact ⟨w, w', moves_iff.1 hl, moves_iff.1 hr, hne⟩
  · rintro ⟨w, w', hl, hr, hne⟩
    exact ⟨⟨w, moves_iff.2 hl⟩, ⟨w', moves_iff.2 hr⟩, hne⟩

theorem transform_eq_ok_iff : transform left right = .ok t ↔
    (∀ k v v', ¬Disputed left right k v v') ∧
      t = ⟨listOf (rebase (effect left) (effect right)),
        listOf (rebase (effect right) (effect left)),
        collides (effect left) (effect right)⟩ := by
  have hnone : mismatch? (effect left) (effect right) = none ↔
      ∀ k v v', ¬Disputed left right k v v' := by
    rw [mismatch?_eq_none_iff]
    constructor
    · intro h k v v' hd
      obtain ⟨w, w', hclash⟩ := disputed_iff.1 hd
      exact h _ _ _ hclash
    · intro h k c d hclash
      exact h k c.prev d.prev (disputed_iff.2 ⟨c.next, d.next, hclash⟩)
  rw [← hnone]
  cases hm : mismatch? (effect left) (effect right) with
  | none => simp [transform_eq, hm, eq_comm]
  | some b => simp [transform_eq, hm]

/-- The fault names the least key in dispute, and the values that the two sides expect. -/
theorem transform_eq_error_iff {e : Fault} : transform left right = .error e ↔
    ∃ k v v', Disputed left right k v v' ∧
      (∀ j u u', Disputed left right j u u' → compare j k ≠ .lt) ∧
      e = .transformConflict ("key " ++ quote k ++ ": left expects " ++ quoteOption v ++
        ", right expects " ++ quoteOption v') := by
  have hsome : (∃ b, mismatch? (effect left) (effect right) = some b ∧
      e = .transformConflict ("key " ++ quote b.1 ++ ": left expects " ++
        quoteOption b.2.1.prev ++ ", right expects " ++ quoteOption b.2.2.prev)) ↔
      transform left right = .error e := by
    cases hm : mismatch? (effect left) (effect right) with
    | none => simp [transform_eq, hm]
    | some b => simp [transform_eq, hm, disagreement, eq_comm]
  rw [← hsome]
  constructor
  · rintro ⟨⟨k, c, d⟩, hb, rfl⟩
    obtain ⟨hclash, hleast⟩ := mismatch?_eq_some_iff.1 hb
    refine ⟨k, c.prev, d.prev, disputed_iff.2 ⟨c.next, d.next, hclash⟩, fun j u u' hd => ?_, rfl⟩
    obtain ⟨w, w', hclash'⟩ := disputed_iff.1 hd
    exact hleast _ _ _ hclash'
  · rintro ⟨k, v, v', hd, hleast, rfl⟩
    obtain ⟨w, w', hclash⟩ := disputed_iff.1 hd
    refine ⟨(k, ⟨v, w⟩, ⟨v', w'⟩), mismatch?_eq_some_iff.2 ⟨hclash, fun j a b h => ?_⟩, rfl⟩
    exact hleast j a.prev b.prev (disputed_iff.2 ⟨a.next, b.next, h⟩)

theorem exists_error_iff : (∃ e, transform left right = .error e) ↔
    ∃ k v v', Disputed left right k v v' := by
  constructor
  · rintro ⟨e, he⟩
    obtain ⟨k, v, v', hd, -⟩ := transform_eq_error_iff.1 he
    exact ⟨k, v, v', hd⟩
  · rintro ⟨k, v, v', hd⟩
    cases ht : transform left right with
    | ok t => exact absurd hd ((transform_eq_ok_iff.1 ht).1 k v v')
    | error e => exact ⟨e, rfl⟩

theorem Disputed.symm (h : Disputed left right k v v') : Disputed right left k v' v :=
  ⟨h.right, h.left, h.ne.symm⟩

theorem exists_error_comm : (∃ e, transform right left = .error e) ↔
    ∃ e, transform left right = .error e := by
  rw [exists_error_iff, exists_error_iff]
  constructor
  · rintro ⟨k, v, v', hd⟩
    exact ⟨k, v', v, hd.symm⟩
  · rintro ⟨k, v, v', hd⟩
    exact ⟨k, v', v, hd.symm⟩

theorem transform_swapped (h : transform left right = .ok t) :
    transform right left = .ok t.swapped := by
  obtain ⟨hnone, rfl⟩ := transform_eq_ok_iff.1 h
  refine transform_eq_ok_iff.2 ⟨fun k v v' hd => hnone k v' v hd.symm, ?_⟩
  rw [Transformation.swapped, collides_comm]

/-- Only the effects of the two sides count. -/
theorem transform_congr {left' right' : List Operation} (hl : effect left = effect left')
    (hr : effect right = effect right') : transform left right = transform left' right' := by
  rw [transform, transform, hl, hr]

/-- How transforming treats any two sides. It fails for a key in dispute and for nothing else,
whichever side comes first; what it gives depends on the two net changes only, comes with the sides
exchanged for exchanged sides, and cannot be squashed further; and it reports a conflict if both
sides move a key to different values. -/
theorem transform_laws (left right : List Operation) :
    ((∃ e, transform left right = .error e) ↔ ∃ k v v', Disputed left right k v v') ∧
      ((∃ e, transform right left = .error e) ↔ ∃ e, transform left right = .error e) ∧
      (∀ t, transform left right = .ok t → transform right left = .ok t.swapped) ∧
      transform (squash left) right = transform left right ∧
      transform left (squash right) = transform left right ∧
      ∀ t, transform left right = .ok t → squash t.left = t.left ∧ squash t.right = t.right ∧
        (t.conflict = true ↔ ∃ k v v' w w', Moves left k v w ∧ Moves right k v' w' ∧ w ≠ w') := by
  refine ⟨exists_error_iff, exists_error_comm, fun t => transform_swapped,
    transform_congr (effect_squash left) rfl, transform_congr rfl (effect_squash right), ?_⟩
  rintro t ht
  obtain ⟨-, rfl⟩ := transform_eq_ok_iff.1 ht
  refine ⟨squash_listOf _, squash_listOf _, ?_⟩
  rw [collides_iff]
  constructor
  · rintro ⟨k, c, d, hc, hd, hne⟩
    exact ⟨k, c.prev, d.prev, c.next, d.next, moves_iff.2 hc, moves_iff.2 hd, hne⟩
  · rintro ⟨k, v, v', w, w', hl, hr, hne⟩
    exact ⟨k, ⟨v, w⟩, ⟨v', w'⟩, moves_iff.1 hl, moves_iff.1 hr, hne⟩

def renamed : List Operation :=
  [.single "title" ⟨some "draft", some "b"⟩, .single "title" ⟨some "b", some "final"⟩]

def annotated : List Operation :=
  [⟨.ofList [("note", ⟨none, some "a"⟩), ("title", ⟨some "draft", some "plan"⟩)]⟩]

def entitled : List Operation := [.single "title" ⟨none, some "plan"⟩]

theorem transform_laws_renamed :
    (∃ t, transform renamed annotated = .ok t ∧ transform annotated renamed = .ok t.swapped ∧
      transform (squash renamed) annotated = .ok t ∧ squash t.left = t.left ∧
      squash t.right = t.right ∧ t.conflict = true ∧
      ∃ k v v' w w', Moves renamed k v w ∧ Moves annotated k v' w' ∧ w ≠ w') ∧
      (∃ e, transform renamed entitled = .error e) ∧ (∃ e, transform entitled renamed = .error e) ∧
      ∃ k v v', Disputed renamed entitled k v v' := by
  constructor
  · have ht : transform renamed annotated =
        .ok ⟨[], [⟨.ofList [("note", ⟨none, some "a"⟩), ("title", ⟨some "final", some "plan"⟩)]⟩],
          true⟩ := by
      decide
    obtain ⟨-, -, hswapped, hsquash, -, hok⟩ := transform_laws renamed annotated
    obtain ⟨hleft, hright, hconflict⟩ := hok _ ht
    exact ⟨_, ht, hswapped _ ht, hsquash.trans ht, hleft, hright, rfl, hconflict.1 rfl⟩
  · have he : ∃ e, transform renamed entitled = .error e := ⟨_, rfl⟩
    obtain ⟨hdisputed, hreversed, -⟩ := transform_laws renamed entitled
    exact ⟨he, hreversed.2 he, hdisputed.1 he⟩

end

end Operation

end Confluence
