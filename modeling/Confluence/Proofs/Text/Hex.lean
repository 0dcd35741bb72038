import Confluence.Proofs.Text.ByteOrder
import Confluence.Text.Hex
import Mathlib.Data.List.Basic

/-!
# What hexadecimal text tells

Sixteen characters are written as digits and six more are read as such, the capitals. All of them
take one byte in UTF-8, so a text of digits has as many bytes as characters. Digits ascend with
their values, and so bytes written as two digits each keep their order.
-/

namespace Confluence

namespace Text

/-! ## Characters of one byte -/

theorem encode_ascii {c : Char} (h : c.toNat < 0x80) :
    String.utf8EncodeChar c = [UInt8.ofNat c.toNat] :=
  if_pos (Nat.le_of_lt_succ h)

/-- A character of several bytes has a byte that stands for no character. -/
theorem exists_not_ascii {c : Char} (h : ¬ c.toNat < 0x80) :
    ∃ b ∈ String.utf8EncodeChar c, ¬ b.toNat < 0x80 := by
  have hc : ¬ c.val.toNat ≤ 0x7f := fun hle => h (Nat.lt_succ_of_le hle)
  have hbyte (n : Nat) (hlow : 0x80 ≤ n) (hhigh : n < 0x100) : ¬ (UInt8.ofNat n).toNat < 0x80 := by
    rw [UInt8.toNat_ofNat', Nat.mod_eq_of_lt hhigh]
    omega
  unfold String.utf8EncodeChar
  rw [if_neg hc]
  split_ifs
  all_goals exact ⟨_, List.mem_cons_self, hbyte _ (by omega) (by omega)⟩

theorem bytes_ofList {l : List Char} (h : ∀ c ∈ l, c.toNat < 0x80) :
    bytes (String.ofList l) = l.map fun c => UInt8.ofNat c.toNat := by
  rw [bytes_eq_flatMap, String.toList_ofList, List.map_eq_flatMap]
  exact List.flatMap_congr fun c hc => encode_ascii (h c hc)

theorem toList_eq_map_bytes {s : String} (h : ∀ b ∈ bytes s, b.toNat < 0x80) :
    s.toList = (bytes s).map fun b => Char.ofNat b.toNat := by
  rw [bytes_eq_flatMap] at h ⊢
  have hascii : ∀ c ∈ s.toList, c.toNat < 0x80 := fun c hc => by
    by_contra hlong
    obtain ⟨b, hb, hbyte⟩ := exists_not_ascii hlong
    exact hbyte (h b (List.mem_flatMap.2 ⟨c, hc, hb⟩))
  rw [List.map_flatMap]
  conv_lhs => rw [← List.flatMap_singleton' s.toList]
  refine List.flatMap_congr fun c hc => ?_
  have hmod : c.toNat % 256 = c.toNat := Nat.mod_eq_of_lt (by have := hascii c hc; omega)
  simp [encode_ascii (hascii c hc), hmod, Char.ofNat_toNat]

theorem toList_toLower (s : String) : s.toLower.toList = s.toList.map Char.toLower :=
  String.toList_map

end Text

namespace Hex

/-! ## Digits -/

def IsDigit (b : UInt8) : Prop :=
  (0x30 ≤ b ∧ b ≤ 0x39) ∨ (0x61 ≤ b ∧ b ≤ 0x66) ∨ (0x41 ≤ b ∧ b ≤ 0x46)

instance : DecidablePred IsDigit := fun _ => inferInstanceAs (Decidable (_ ∨ _ ∨ _))

theorem digit_ascii {n : Nat} (h : n < 16) : (digit n).toNat < 0x80 := by
  have hall : ∀ n < 16, (digit n).toNat < 0x80 := by decide
  exact hall n h

theorem value?_digit {n : Nat} (h : n < 16) : value? (digit n) = some n := by
  have hall : ∀ n < 16, value? (digit n) = some n := by decide
  exact hall n h

theorem digit_lt_digit {m n : Nat} (h : m < n) (hn : n < 16) : digit m < digit n := by
  have hall : ∀ n < 16, ∀ m < n, digit m < digit n := by decide
  exact hall n hn m h

/-- Among the characters of one byte those with a value are the digits, and writing the value gives
the digit in lower case. -/
theorem value?_ascii {n : Nat} (h : n < 0x80) :
    ((value? (Char.ofNat n)).isSome ↔ IsDigit (UInt8.ofNat n)) ∧
      ∀ v ∈ value? (Char.ofNat n), v < 16 ∧ digit v = (Char.ofNat n).toLower := by
  have hall : ∀ n < 0x80, ((value? (Char.ofNat n)).isSome ↔ IsDigit (UInt8.ofNat n)) ∧
      ∀ v ∈ value? (Char.ofNat n), v < 16 ∧ digit v = (Char.ofNat n).toLower := by
    decide +kernel
  exact hall n h

/-! ## Bytes -/

theorem ofByte_inj {a b : UInt8} (h : ofByte a = ofByte b) : a = b := by
  have ha := a.toNat_lt
  have hb := b.toNat_lt
  simp only [ofByte, List.cons.injEq, and_true] at h
  have hhigh := congrArg value? h.1
  have hlow := congrArg value? h.2
  rw [value?_digit (by omega), value?_digit (by omega), Option.some.injEq] at hhigh hlow
  exact UInt8.toNat_inj.1 (by omega)

theorem ofBytes_inj {l m : List UInt8} (h : ofBytes l = ofBytes m) : l = m := by
  induction l generalizing m with
  | nil =>
      cases m with
      | nil => rfl
      | cons b m => simp [ofBytes, ofByte] at h
  | cons a l ih =>
      cases m with
      | nil => simp [ofBytes, ofByte] at h
      | cons b m =>
          rw [ofBytes, ofBytes, List.flatMap_cons, List.flatMap_cons] at h
          obtain ⟨hbyte, hrest⟩ := List.append_inj h rfl
          rw [ofByte_inj hbyte, ih hrest]

theorem ofByte_append_lt {a b : UInt8} (h : a < b) (l m : List Char) :
    ofByte a ++ l < ofByte b ++ m := by
  have hlt : a.toNat < b.toNat := UInt8.lt_iff_toNat_lt.1 h
  have hb := b.toNat_lt
  simp only [ofByte, List.cons_append, List.nil_append, List.cons_lt_cons_iff]
  -- the first digits decide unless they are the same
  rcases Nat.lt_or_ge (a.toNat / 16) (b.toNat / 16) with hhigh | hhigh
  · exact .inl (digit_lt_digit hhigh (by omega))
  · have heq : a.toNat / 16 = b.toNat / 16 := by omega
    exact .inr ⟨congrArg digit heq, .inl (digit_lt_digit (by omega) (by omega))⟩

theorem ofBytes_lt {l m : List UInt8} (h : l < m) : ofBytes l < ofBytes m :=
  Text.flatMap_lt (fun _ => List.cons_ne_nil _ _) ofByte_append_lt h

theorem ofBytes_ascii {l : List UInt8} : ∀ c ∈ ofBytes l, c.toNat < 0x80 := by
  intro c hc
  obtain ⟨b, -, hb⟩ := List.mem_flatMap.1 hc
  have hlt := b.toNat_lt
  simp only [ofByte, List.mem_cons, List.not_mem_nil, or_false] at hb
  rcases hb with rfl | rfl
  · exact digit_ascii (by omega)
  · exact digit_ascii (by omega)

end Hex

end Confluence
