import Mathlib.Tactic.Common

/-!
# The order of bytes

Texts are ordered character by character, and stores and other programs may order them by their
UTF-8 bytes. The two orders are one: a smaller character has smaller bytes, whatever follows the
two.
-/

namespace Confluence.Text

def bytes (s : String) : List UInt8 := s.toUTF8.data.toList

theorem bytes_eq_flatMap (s : String) : bytes s = s.toList.flatMap String.utf8EncodeChar := by
  rw [bytes, String.toUTF8_eq_toByteArray, ← String.utf8Encode_toList, List.utf8Encode]
  simp

theorem bytes_inj {s t : String} (h : bytes s = bytes t) : s = t := by
  rw [bytes, bytes, Array.toList_inj, ← ByteArray.ext_iff, String.toUTF8_eq_toByteArray,
    String.toUTF8_eq_toByteArray] at h
  exact String.toByteArray_inj.1 h

theorem toNat_val_lt (c : Char) : c.val.toNat < 0x110000 := by
  have hvalid := c.valid
  simp only [UInt32.isValidChar, Nat.isValidChar] at hvalid
  omega

/-- Two different characters are told apart within the bytes of both of them. -/
theorem encode_lt_encode {c d : Char} (h : c < d) (l m : List UInt8) :
    String.utf8EncodeChar c ++ l < String.utf8EncodeChar d ++ m := by
  have hlt : c.val.toNat < d.val.toNat := h
  have hd := toNat_val_lt d
  have hdigits (n : Nat) : n / 4096 = n / 64 / 64 ∧ n / 262144 = n / 64 / 64 / 64 := by omega
  unfold String.utf8EncodeChar
  generalize c.val.toNat = v at *
  generalize d.val.toNat = w at *
  simp only [(hdigits v).1, (hdigits v).2, (hdigits w).1, (hdigits w).2]
  -- one case for every pair of lengths: the first byte tells the length, the digits do the rest
  split_ifs
  all_goals
    simp only [List.cons_append, List.nil_append, List.cons_lt_cons_iff, UInt8.lt_iff_toNat_lt,
      ← UInt8.toNat_inj, UInt8.toNat_ofNat']
    omega

/-- Writing items one after another keeps the order of lists if the order of two items shows within
what is written for them. -/
theorem flatMap_lt {α β : Type} [LT α] [LT β] {f : α → List β} (hne : ∀ a, f a ≠ [])
    (hlt : ∀ {a b}, a < b → ∀ l m, f a ++ l < f b ++ m) {l m : List α} (h : l < m) :
    l.flatMap f < m.flatMap f := by
  induction h with
  | @nil a m =>
      rw [List.flatMap_nil, List.flatMap_cons]
      cases ha : f a with
      | nil => exact absurd ha (hne a)
      | cons b bs => exact .nil
  | rel h => exact hlt h _ _
  | @cons a l m _ ih =>
      rw [List.flatMap_cons, List.flatMap_cons]
      induction f a with
      | nil => exact ih
      | cons b bs ihb => exact .cons ihb

theorem compare_eq_lt_iff {a b : String} : compare a b = .lt ↔ bytes a < bytes b := by
  have hlt : compare a b = .lt ↔ a < b := compareOfLessAndEq_eq_lt
  have hforward {a b : String} (h : a < b) : bytes a < bytes b := by
    rw [bytes_eq_flatMap, bytes_eq_flatMap]
    exact flatMap_lt (fun _ => String.utf8EncodeChar_ne_nil) encode_lt_encode h
  rw [hlt]
  refine ⟨hforward, fun h => ?_⟩
  rcases Std.lt_trichotomy a b with hab | rfl | hba
  · exact hab
  · exact absurd h (List.lt_irrefl _)
  · exact absurd (hforward hba) (List.lt_asymm h)

end Confluence.Text
