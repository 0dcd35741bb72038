import Confluence.Proofs.Text.Json

/-!
# Reading JSON text back

A reader takes its value off the front of a text and leaves what follows. A string, or an absent
value, is read back from its text whatever follows it. An object is read back by folding over its
fields: if every field takes the state a step further and leaves what follows, the object takes it
all the way.
-/

namespace Confluence.Json

/-! ## Blanks -/

def isBlank (c : Char) : Bool := c == ' ' || c == '\n' || c == '\t' || c == '\r'

theorem skipBlank_cons {c : Char} (h : isBlank c = false) (cs : List Char) :
    skipBlank (c :: cs) = c :: cs :=
  List.dropWhile_cons_of_neg (by simpa [isBlank] using h)

theorem skipBlank_quote (s : String) (r : List Char) : skipBlank (quote s ++ r) = quote s ++ r := by
  rw [quote_append]
  exact skipBlank_cons rfl _

/-! ## Values that may be absent -/

theorem readOptional_ofOption (v : Option String) (r : List Char) :
    readOptional ((ofOption v).compact ++ r) = some (v, r) := by
  cases v with
  | none => rfl
  | some s =>
      change readOptional (quote s ++ r) = _
      rw [readOptional, skipBlank_quote]
      have hquote : ∀ cs, quote s ++ r ≠ 'n' :: cs := fun cs h => by
        rw [quote_append, List.cons.injEq] at h
        exact absurd h.1 (by decide)
      split
      next cs h => exact absurd h (hquote cs)
      next => rw [readString_quote, Option.map_some]

/-! ## Objects -/

variable {σ : Type} {field : σ → String → List Char → Option (σ × List Char)}

/-- Fields that are read one after another lead from one state to another. -/
def Folds (field : σ → String → List Char → Option (σ × List Char)) :
    List (String × Json) → σ → σ → Prop
  | [], s, s' => s = s'
  | e :: l, s, s' => ∃ t, (∀ r, field s e.1 (e.2.compact ++ r) = some (t, r)) ∧ Folds field l t s'

theorem length_lt_compactFields (l : List (String × Json)) :
    l.length < (compactFields l).length := by
  induction l with
  | nil => simp [compactFields]
  | cons e l ih =>
      simp only [compactFields, List.length_append, List.length_cons] at ih ⊢
      omega

theorem readFields_succ {s t : σ} {k : String} {v : Json}
    (h : ∀ r, field s k (v.compact ++ r) = some (t, r)) (fuel : Nat) (r : List Char) :
    readFields field (fuel + 1) s (quote k ++ ':' :: (v.compact ++ r)) =
      match skipBlank r with
      | ',' :: cs => readFields field fuel t cs
      | '\x7d' :: cs => some (t, cs)
      | _ => none := by
  have hcolon : expect [':'] (skipBlank (':' :: (v.compact ++ r))) = some (v.compact ++ r) := rfl
  rw [readFields, readString_quote, Option.bind_eq_bind, Option.bind_some]
  simp only [hcolon, Option.bind_eq_bind, Option.bind_some]
  rw [h]
  rfl

theorem readFields_compactFields {l : List (String × Json)} {s s' : σ} {k : String} {v : Json}
    (h : Folds field ((k, v) :: l) s s') {fuel : Nat} (hfuel : l.length < fuel) (r : List Char) :
    readFields field fuel s (quote k ++ ':' :: (v.compact ++ (compactFields l ++ r))) =
      some (s', r) := by
  induction l generalizing s k v fuel with
  | nil =>
      obtain ⟨t, hfield, rfl⟩ := h
      obtain ⟨fuel, rfl⟩ := Nat.exists_eq_add_one.2 hfuel
      rw [readFields_succ hfield]
      rfl
  | cons e l ih =>
      obtain ⟨t, hfield, hrest⟩ := h
      obtain ⟨fuel, rfl⟩ := Nat.exists_eq_add_one.2 (Nat.zero_lt_of_lt hfuel)
      have hcomma : ∀ cs, skipBlank (',' :: cs) = ',' :: cs := skipBlank_cons rfl
      rw [readFields_succ hfield, compactFields]
      simp only [List.cons_append, List.append_assoc, hcomma]
      exact ih hrest (Nat.lt_of_succ_lt_succ hfuel)

theorem readObject_quote (s : σ) (k : String) (r : List Char) :
    readObject field s ('\x7b' :: (quote k ++ r)) =
      readFields field (quote k ++ r).length s (quote k ++ r) := by
  -- so the object has fields
  have hbrace : ∀ cs, quote k ++ r ≠ '\x7d' :: cs := by simp [quote_append]
  rw [readObject, skipBlank_cons rfl]
  simp only [skipBlank_quote]

/-- An object is read back by folding over its fields. -/
theorem readObject_obj {l : List (String × Json)} {s s' : σ} (h : Folds field l s s')
    (r : List Char) : readObject field s ((obj l).compact ++ r) = some (s', r) := by
  cases l with
  | nil =>
      cases h
      rfl
  | cons e l =>
      have hfuel := length_lt_compactFields l
      simp only [compact, List.cons_append, List.append_assoc]
      rw [readObject_quote]
      refine readFields_compactFields h ?_ r
      simp only [List.length_append, List.length_cons]
      omega

end Confluence.Json
