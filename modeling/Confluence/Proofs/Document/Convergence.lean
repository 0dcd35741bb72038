import Confluence.Proofs.Document.Transform
import Confluence.Proofs.Text.ByteOrder

/-!
# Two sides converge

Two lists that fit one document can be made in either order: what `transform` leaves of each fits
the document after the other, and both orders end in one document. That document is told key by
key. A key that neither side moved keeps its value, a key that one side moved has that side's
value, and a key that both moved has the greater of the two values, absence lying below every text
and texts standing in the order of their bytes.
-/

namespace Confluence

open Std Text

namespace Operation

def Below : Option String → Option String → Prop
  | _, none => False
  | none, some _ => True
  | some a, some b => bytes a < bytes b

theorem prevails_iff_below {v w : Option String} : prevails v w = true ↔ Below w v := by
  cases v with
  | none => simp [prevails, Below]
  | some a =>
      cases w with
      | none => simp [prevails, Below]
      | some b =>
          rw [prevails, beq_iff_eq]
          exact compare_eq_lt_iff

/-- The value `v` that a key ends on, for two sides that found it on one value and left it on two:
`left` and `right` are what they left. -/
structure Joined (base left right v : Option String) : Prop where
  unmoved : left = base → right = base → v = base
  moved_left : left ≠ base → right = base → v = left
  moved_right : left = base → right ≠ base → v = right
  /-- Where both moved the key, it has one of the two values and lies below neither. -/
  moved_both : left ≠ base → right ≠ base →
    (v = left ∨ v = right) ∧ ¬Below v left ∧ ¬Below v right

theorem joined_resolve (base left right : Option String) :
    Joined base left right (resolve base left right) := by
  refine ⟨?_, ?_, ?_, fun hl hr => ?_⟩
  · rintro rfl rfl
    exact resolve_left ..
  · rintro - rfl
    exact resolve_right ..
  · rintro rfl -
    exact resolve_left ..
  · have hself (v : Option String) : ¬Below v v := by simp [← prevails_iff_below, prevails_irrefl]
    simp only [resolve, if_neg hl, if_neg hr]
    split
    next hp =>
      refine ⟨.inl rfl, hself left, ?_⟩
      simp [← prevails_iff_below, prevails_asymm hp]
    next hp =>
      refine ⟨.inr rfl, ?_, hself right⟩
      rwa [← prevails_iff_below]

theorem joined_iff {base left right v : Option String} :
    Joined base left right v ↔ v = resolve base left right := by
  refine ⟨fun h => ?_, fun h => h ▸ joined_resolve base left right⟩
  have hw := joined_resolve base left right
  generalize resolve base left right = w at hw
  by_cases hl : left = base
  · by_cases hr : right = base
    · rw [h.unmoved hl hr, hw.unmoved hl hr]
    · rw [h.moved_right hl hr, hw.moved_right hl hr]
  · by_cases hr : right = base
    · rw [h.moved_left hl hr, hw.moved_left hl hr]
    · obtain ⟨hv, hvl, hvr⟩ := h.moved_both hl hr
      obtain ⟨hw, hwl, hwr⟩ := hw.moved_both hl hr
      by_contra hne
      -- both are one of the two values, so either lies below the other
      have hvw : ¬Below v w := by rcases hw with rfl | rfl <;> assumption
      have hwv : ¬Below w v := by rcases hv with rfl | rfl <;> assumption
      rcases prevails_total hne with hp | hp
      · exact hwv (prevails_iff_below.1 hp)
      · exact hvw (prevails_iff_below.1 hp)

/-- Any two lists that fit one document transform, and both orders end in the joined document. -/
theorem transform_converges {s : Document} {left right : List Operation}
    (hl : s.Anchors left) (hr : s.Anchors right) :
    ∃ t, transform left right = .ok t ∧
      (s.applyAll right).Anchors t.left ∧ (s.applyAll left).Anchors t.right ∧
      (s.applyAll right).applyAll t.left = (s.applyAll left).applyAll t.right ∧
      ∀ k, Joined (s.get? k) ((s.applyAll left).get? k) ((s.applyAll right).get? k)
        (((s.applyAll right).applyAll t.left).get? k) := by
  obtain ⟨t, m, ht, hleft, hright, hm⟩ :=
    Document.Leads.transform (.of_anchors hl) (.of_anchors hr)
  refine ⟨t, ht, hleft.anchors, hright.anchors, ?_, fun k => ?_⟩
  · rw [hleft.applyAll_eq, hright.applyAll_eq]
  · rw [hleft.applyAll_eq]
    exact joined_iff.2 (hm k)

def titled : Document := Document.empty.put "title" (some "draft")

def restoring : List Operation :=
  [.single "title" ⟨some "draft", none⟩, .single "title" ⟨none, some "draft"⟩,
    .single "note" ⟨none, some "z"⟩]

def retitling : List Operation :=
  [.single "title" ⟨some "draft", some "final"⟩, .single "note" ⟨none, some "é"⟩]

theorem transform_converges_restored : titled.Anchors restoring ∧ titled.Anchors retitling ∧
    ∃ t, transform restoring retitling = .ok t ∧
      (titled.applyAll retitling).Anchors t.left ∧ (titled.applyAll restoring).Anchors t.right ∧
      (titled.applyAll retitling).applyAll t.left = (titled.applyAll restoring).applyAll t.right ∧
      ∀ k, Joined (titled.get? k) ((titled.applyAll restoring).get? k)
        ((titled.applyAll retitling).get? k)
        (((titled.applyAll retitling).applyAll t.left).get? k) := by
  have hl : titled.Anchors restoring :=
    (((Document.Leads.edit titled "title" none).append
      (.edit (titled.put "title" none) "title" (some "draft"))).append
        (.edit titled "note" (some "z"))).anchors
  have hr : titled.Anchors retitling :=
    ((Document.Leads.edit titled "title" (some "final")).append
      (.edit (titled.put "title" (some "final")) "note" (some "é"))).anchors
  exact ⟨hl, hr, transform_converges hl hr⟩

example : transform restoring retitling = .ok
    ⟨[], [⟨.ofList [("note", ⟨some "z", some "é"⟩), ("title", ⟨some "draft", some "final"⟩)]⟩],
      true⟩ := by decide

end Operation

end Confluence
