import Confluence.Proofs.Document.Difference

/-!
# Undoing lists

The inverse of a list has the inverse of its net change under every key, so the two together come
to nothing, and after a list that fits a document its inverse leads back to that document. The
operations of the inverse are made in the opposite order: where every operation of a list has found
the values that it expects, every operation of the inverse finds those that were left behind.
-/

namespace Confluence

open Change

namespace Operation

variable {l : List Operation}

theorem get?_inverse (o : Operation) (k : String) :
    o.inverse.changes.get? k = (o.changes.get? k).map Change.inverse :=
  OrdMap.get?_map ..

theorem invert_append (a b : List Operation) : invert (a ++ b) = invert b ++ invert a := by
  rw [invert, List.reverse_append, List.map_append, ← invert, ← invert]

theorem invert_cons (o : Operation) (l : List Operation) :
    invert (o :: l) = invert l ++ [o.inverse] :=
  invert_append [o] l

theorem invert_invert (l : List Operation) : invert (invert l) = l := by
  have hid : inverse ∘ inverse = id := funext inverse_inverse
  rw [invert, invert, ← List.map_reverse, List.reverse_reverse, List.map_map, hid, List.map_id]

theorem map_inverse_chain (x y : Option Change) :
    (chain x y).map Change.inverse = chain (y.map Change.inverse) (x.map Change.inverse) := by
  cases x <;> cases y <;> rfl

theorem get?_net_invert (l : List Operation) (k : String) :
    (net (invert l)).get? k = ((net l).get? k).map Change.inverse := by
  induction l with
  | nil => rfl
  | cons o l ih =>
      rw [invert_cons, get?_net_append, get?_net_singleton, get?_inverse, ih, get?_net_cons,
        map_inverse_chain]

/-- Under every key a list and its inverse end on the value with which they began. -/
theorem squash_append_invert (l : List Operation) : squash (l ++ invert l) = [] := by
  have heffect (k : String) : (effect (l ++ invert l)).get? k = none := by
    rw [get?_effect, get?_net_append, get?_net_invert]
    cases (net l).get? k with
    | none => rfl
    | some c => simp [chain, Change.inverse, Change.isNoop]
  rw [Document.squash_eq, if_pos (OrdMap.isEmpty_iff.2 heffect)]

end Operation

namespace Document

open Operation

variable {d : Document} {o : Operation} {a b l : List Operation}

theorem applyAll_invert (h : d.Anchors l) : (d.applyAll l).applyAll (invert l) = d := by
  refine ext fun k => ?_
  rw [get?_applyAll, get?_applyAll, get?_net_invert]
  cases hc : (net l).get? k with
  | none => rfl
  | some c => exact anchors_iff_net.1 h k c hc

/-- Every operation of a list finds the values that it expects, in the document that the operations
before it have left. -/
def Meets : Document → List Operation → Prop
  | _, [] => True
  | d, o :: l => (∀ k c, o.changes.get? k = some c → c.prev = d.get? k) ∧ (d.apply o).Meets l

@[simp] theorem meets_nil (d : Document) : d.Meets [] := trivial

theorem meets_cons : d.Meets (o :: l) ↔ d.Anchors [o] ∧ (d.apply o).Meets l := by
  rw [anchors_iff_net]
  simp only [get?_net_singleton]
  rfl

theorem meets_append : d.Meets (a ++ b) ↔ d.Meets a ∧ (d.applyAll a).Meets b := by
  induction a generalizing d with
  | nil => exact (and_iff_right (meets_nil d)).symm
  | cons o a ih =>
      rw [List.cons_append, meets_cons, meets_cons, ih, and_assoc]
      rfl

instance decidableMeets : (d : Document) → (l : List Operation) → Decidable (d.Meets l)
  | d, [] => isTrue (meets_nil d)
  | d, o :: l =>
      have := decidableMeets (d.apply o) l
      decidable_of_iff (d.Anchors [o] ∧ (d.apply o).Meets l) meets_cons.symm

theorem Meets.anchors (h : d.Meets l) : d.Anchors l := by
  induction l generalizing d with
  | nil => exact (Leads.nil d).anchors
  | cons o l ih =>
      obtain ⟨ho, hl⟩ := meets_cons.1 h
      have hfirst : Leads d [o] (d.apply o) := ⟨ho, rfl⟩
      exact (hfirst.append (.of_anchors (ih hl))).anchors

/-- The inverse of an operation expects what the operation leaves behind. -/
theorem meets_inverse (d : Document) (o : Operation) : (d.apply o).Meets [o.inverse] := by
  refine ⟨fun k c hc => ?_, trivial⟩
  rw [get?_inverse] at hc
  obtain ⟨b, hb, rfl⟩ := Option.map_eq_some_iff.1 hc
  rw [get?_apply, hb]
  rfl

/-- The last operation is undone first, in the document that it has left. -/
theorem Meets.invert (h : d.Meets l) : (d.applyAll l).Meets (invert l) := by
  induction l generalizing d with
  | nil => exact meets_nil _
  | cons o l ih =>
      obtain ⟨-, hl⟩ := meets_cons.1 h
      have hback : ((d.apply o).applyAll l).applyAll (Operation.invert l) = d.apply o :=
        applyAll_invert hl.anchors
      rw [invert_cons, meets_append]
      refine ⟨ih hl, ?_⟩
      change (((d.apply o).applyAll l).applyAll (Operation.invert l)).Meets [o.inverse]
      rw [hback]
      exact meets_inverse d o

/-- Inverting a list undoes it. Inverting is its own inverse, turns the parts of a list round, and
cancels the list whatever it expects; where the list fits a document the inverse leads back to it,
and where every operation has found the values that it expects every operation of the inverse
does. -/
theorem invert_undoes (l : List Operation) :
    invert (invert l) = l ∧
      (∀ a b, l = a ++ b → invert l = invert b ++ invert a) ∧
      squash (l ++ invert l) = [] ∧
      (∀ d : Document, d.Anchors l → (d.applyAll l).applyAll (invert l) = d) ∧
      ∀ d : Document, d.Meets l → (d.applyAll l).Meets (invert l) := by
  refine ⟨invert_invert l, ?_, squash_append_invert l, fun d hd => applyAll_invert hd,
    fun d hd => hd.invert⟩
  rintro a b rfl
  exact invert_append a b

theorem invert_undoes_restored :
    invert (invert restored) = restored ∧
      squash (restored ++ invert restored) = [] ∧
      (restored = restored.take 1 ++ restored.drop 1 ∧
        invert restored = invert (restored.drop 1) ++ invert (restored.take 1)) ∧
      (drafted.Anchors restored ∧
        (drafted.applyAll restored).applyAll (invert restored) = drafted) ∧
      drafted.Meets restored ∧ (drafted.applyAll restored).Meets (invert restored) := by
  have hsplit : restored = restored.take 1 ++ restored.drop 1 := by decide
  have hanchors : drafted.Anchors restored := by decide
  have hmeets : drafted.Meets restored := by decide
  obtain ⟨hagain, hturn, hcancel, hback, hinverse⟩ := invert_undoes restored
  exact ⟨hagain, hcancel, ⟨hsplit, hturn _ _ hsplit⟩, ⟨hanchors, hback _ hanchors⟩, hmeets,
    hinverse _ hmeets⟩

end Document

end Confluence
