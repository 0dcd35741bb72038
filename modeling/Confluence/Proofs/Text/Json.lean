import Confluence.Json.Reader

/-!
# What JSON text tells

The text of a value tells the value, also where more text follows: only a number could go on, so
what follows must not start with a digit. A string is read back as it was, which shows that its text
ends at the first quote that is not escaped. The first character of a text tells its kind, and every
item is followed by a comma or a closing bracket.
-/

namespace Confluence.Json

/-! ## Strings -/

theorem unit?_control {n : Nat} (h : n < 32) :
    unit? '0' '0' (Hex.digit (n / 16)) (Hex.digit (n % 16)) = some n := by
  have hall : ∀ n < 32, unit? '0' '0' (Hex.digit (n / 16)) (Hex.digit (n % 16)) = some n := by
    decide
  exact hall n h

theorem readChars_escapeChar (c : Char) (cs : List Char) :
    readChars (escapeChar c ++ cs) = (readChars cs).map fun r => (c :: r.1, r.2) := by
  unfold escapeChar
  split
  case h_8 hquote hslash _ _ _ _ _ =>
    split
    next hc =>
      have hhigh : isHighSurrogate c.toNat = false := by simp [isHighSurrogate]; omega
      have hlow : isLowSurrogate c.toNat = false := by simp [isLowSurrogate]; omega
      simp [readChars, unit?_control hc, hhigh, hlow, Char.ofNat_toNat]
    next hc =>
      rw [List.singleton_append, readChars]
      · rw [if_neg (by simpa [hc] using hslash)]
      · exact hquote
      · exact fun _ _ _ _ _ h => absurd h hslash
      · exact fun _ _ h => absurd h hslash
  all_goals simp [readChars, shortEscape?]

theorem readChars_flatMap_escapeChar (l r : List Char) :
    readChars (l.flatMap escapeChar ++ '"' :: r) = some (l, r) := by
  induction l with
  | nil => simp [readChars]
  | cons c l ih =>
      rw [List.flatMap_cons, List.append_assoc, readChars_escapeChar, ih, Option.map_some]

theorem quote_append (s : String) (r : List Char) :
    quote s ++ r = '"' :: (s.toList.flatMap escapeChar ++ '"' :: r) := by
  rw [quote, List.cons_append, List.cons_append, List.append_assoc, List.singleton_append]

/-- A string is read back as it was, whatever follows it. -/
theorem readString_quote (s : String) (r : List Char) :
    readString (quote s ++ r) = some (s, r) := by
  have hblank : skipBlank (quote s ++ r) = quote s ++ r := by simp [skipBlank, quote]
  rw [readString, hblank, quote_append]
  simp only [readChars_flatMap_escapeChar, Option.map_some, String.ofList_toList]

theorem quote_append_inj {s t : String} {r u : List Char} (h : quote s ++ r = quote t ++ u) :
    s = t ∧ r = u := by
  have hread := congrArg readString h
  rw [readString_quote, readString_quote] at hread
  simpa using hread

/-! ## Numbers -/

theorem isDigit_of_mem_toString {n : Nat} {c : Char} (h : c ∈ (toString n).toList) :
    c.isDigit = true := by
  rw [Nat.toString_eq_ofList_toDigits, String.toList_ofList] at h
  exact Nat.isDigit_of_mem_toDigits (by decide) (by decide) h

theorem toString_ne_nil (n : Nat) : (toString n).toList ≠ [] := by
  rw [Nat.toString_eq_ofList_toDigits, String.toList_ofList]
  exact Nat.toDigits_ne_nil

def Ends (r : List Char) : Prop := ∀ c ∈ r.head?, c.isDigit = false

theorem nat_append_inj {m n : Nat} {r s : List Char} (hr : Ends r) (hs : Ends s)
    (h : (toString m).toList ++ r = (toString n).toList ++ s) : m = n ∧ r = s := by
  have hspan {n : Nat} {r : List Char} (hr : Ends r) :
      ((toString n).toList ++ r).takeWhile Char.isDigit = (toString n).toList := by
    rw [List.takeWhile_append_of_pos fun c hc => isDigit_of_mem_toString hc]
    cases r with
    | nil => simp
    | cons c r => simp [hr c rfl]
  have htext : (toString m).toList = (toString n).toList := by
    rw [← hspan hr, h, hspan hs]
  rw [htext, List.append_cancel_left_eq] at h
  rw [Nat.toString_eq_ofList_toDigits, Nat.toString_eq_ofList_toDigits, String.toList_ofList,
    String.toList_ofList] at htext
  have hvalue := congrArg (fun l => Nat.ofDigitChars 10 l 0) htext
  simp only [Nat.ofDigitChars_ten_toDigits] at hvalue
  exact ⟨hvalue, h⟩

/-! ## Kinds -/

def kind : Json → Char
  | null => 'n'
  | bool _ => 'b'
  | nat _ => '0'
  | str _ => '"'
  | arr _ => '['
  | obj _ => '\x7b'

def kindOf (c : Char) : Char :=
  if c.isDigit then '0' else if c = 't' ∨ c = 'f' then 'b' else c

theorem exists_head (v : Json) : ∃ c l, compact v = c :: l ∧ kindOf c = v.kind := by
  cases v with
  | null => exact ⟨_, _, rfl, rfl⟩
  | bool b => cases b <;> exact ⟨_, _, rfl, by decide⟩
  | nat n =>
      obtain ⟨c, l, hl⟩ := List.exists_cons_of_ne_nil (toString_ne_nil n)
      have hc : c.isDigit = true := isDigit_of_mem_toString (hl ▸ List.mem_cons_self)
      exact ⟨c, l, hl, if_pos hc⟩
  | str s => exact ⟨_, _, rfl, rfl⟩
  | arr items => cases items <;> exact ⟨_, _, rfl, rfl⟩
  | obj fields => cases fields <;> exact ⟨_, _, rfl, rfl⟩

theorem kind_eq {v w : Json} {r s : List Char} (h : compact v ++ r = compact w ++ s) :
    v.kind = w.kind := by
  obtain ⟨c, l, hc, hv⟩ := exists_head v
  obtain ⟨d, m, hd, hw⟩ := exists_head w
  rw [hc, hd, List.cons_append, List.cons_append, List.cons.injEq] at h
  rw [← hv, ← hw, h.1]

/-! ## Values -/

theorem ends_cons {c : Char} (hc : c.isDigit = false) (r : List Char) : Ends (c :: r) := by
  rintro d ⟨⟩
  exact hc

theorem ends_items (l : List Json) (r : List Char) : Ends (compactItems l ++ r) := by
  cases l <;> exact ends_cons (by decide) _

theorem ends_fields (l : List (String × Json)) (r : List Char) : Ends (compactFields l ++ r) := by
  cases l with
  | nil => exact ends_cons (by decide) _
  | cons e l => exact ends_cons (by decide) _

/-- No value starts like the end of an array. -/
theorem compact_append_ne (v : Json) (r s : List Char) : compact v ++ r ≠ ']' :: s := by
  intro h
  obtain ⟨d, l, hd, hkind⟩ := exists_head v
  rw [hd, List.cons_append, List.cons.injEq] at h
  rw [h.1] at hkind
  cases v <;> simp [kind, kindOf] at hkind

theorem items_eq_of_arr {l m : List Json} {r s : List Char}
    (h : compact (arr l) ++ r = compact (arr m) ++ s) :
    compactItems l ++ r = compactItems m ++ s := by
  cases l with
  | nil =>
      cases m with
      | nil => simpa [compact, compactItems] using h
      | cons w m =>
          simp only [compact, List.cons_append, List.nil_append, List.append_assoc, List.cons.injEq,
            true_and] at h
          exact absurd h.symm (compact_append_ne w _ _)
  | cons v l =>
      cases m with
      | nil =>
          simp only [compact, List.cons_append, List.nil_append, List.append_assoc, List.cons.injEq,
            true_and] at h
          exact absurd h (compact_append_ne v _ _)
      | cons w m => simpa [compact, compactItems] using h

theorem fields_eq_of_obj {l m : List (String × Json)} {r s : List Char}
    (h : compact (obj l) ++ r = compact (obj m) ++ s) :
    compactFields l ++ r = compactFields m ++ s := by
  cases l <;> cases m
  case nil.nil => simpa [compact, compactFields] using h
  case cons.cons => simpa [compact, compactFields] using h
  all_goals simp [compact, quote] at h

mutual

/-- The text of a value tells the value and where it ends. -/
theorem compact_append_inj (v w : Json) {r s : List Char} (hr : Ends r) (hs : Ends s)
    (h : compact v ++ r = compact w ++ s) : v = w ∧ r = s := by
  have hkind := kind_eq h
  -- values of different kinds are out of the question
  cases v <;> cases w <;> simp only [kind, Char.reduceEq] at hkind
  case null.null => simpa [compact] using h
  case bool.bool b c => cases b <;> cases c <;> simp_all [compact]
  case nat.nat m n =>
    obtain ⟨rfl, rfl⟩ := nat_append_inj hr hs h
    exact ⟨rfl, rfl⟩
  case str.str t u =>
    obtain ⟨rfl, rfl⟩ := quote_append_inj h
    exact ⟨rfl, rfl⟩
  case arr.arr l m =>
    obtain ⟨rfl, rfl⟩ := compactItems_append_inj l m (items_eq_of_arr h)
    exact ⟨rfl, rfl⟩
  case obj.obj l m =>
    obtain ⟨rfl, rfl⟩ := compactFields_append_inj l m (fields_eq_of_obj h)
    exact ⟨rfl, rfl⟩

theorem compactItems_append_inj (l m : List Json) {r s : List Char}
    (h : compactItems l ++ r = compactItems m ++ s) : l = m ∧ r = s := by
  match l, m with
  | [], [] => simpa [compactItems] using h
  | [], _ :: _ => simp [compactItems] at h
  | _ :: _, [] => simp [compactItems] at h
  | v :: l, w :: m =>
      simp only [compactItems, List.cons_append, List.append_assoc, List.cons.injEq, true_and] at h
      obtain ⟨rfl, hitems⟩ := compact_append_inj v w (ends_items l r) (ends_items m s) h
      obtain ⟨rfl, rfl⟩ := compactItems_append_inj l m hitems
      exact ⟨rfl, rfl⟩

theorem compactFields_append_inj (l m : List (String × Json)) {r s : List Char}
    (h : compactFields l ++ r = compactFields m ++ s) : l = m ∧ r = s := by
  match l, m with
  | [], [] => simpa [compactFields] using h
  | [], _ :: _ => simp [compactFields] at h
  | _ :: _, [] => simp [compactFields] at h
  | (j, v) :: l, (k, w) :: m =>
      simp only [compactFields, List.cons_append, List.append_assoc, List.cons.injEq, true_and] at h
      obtain ⟨rfl, hvalue⟩ := quote_append_inj h
      rw [List.cons.injEq] at hvalue
      obtain ⟨rfl, hfields⟩ :=
        compact_append_inj v w (ends_fields l r) (ends_fields m s) hvalue.2
      obtain ⟨rfl, rfl⟩ := compactFields_append_inj l m hfields
      exact ⟨rfl, rfl⟩

end

theorem compact_inj {v w : Json} (h : compact v = compact w) : v = w := by
  have hends : Ends [] := fun c hc => by cases hc
  exact (compact_append_inj v w hends hends (by rw [h])).1

end Confluence.Json
