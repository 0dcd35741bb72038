import Confluence.Commit.IdRule
import Confluence.Digest.Json
import Confluence.Proofs.Text.Hex
import Confluence.Proofs.Text.Json

/-!
# What the text of a digest tells

A text is read as a digest exactly if it has 64 bytes and all of them are hexadecimal digits. What
is written is read back, and what is read is written in lower case. The order of digests is the
order of their texts, as every byte takes two digits and the digits ascend with their values.
-/

namespace Confluence.Digest

theorem bytes_inj {a b : Digest} : a.bytes = b.bytes ↔ a = b := by
  cases a
  cases b
  exact (mk.injEq ..).symm.to_iff

theorem toText_inj {a b : Digest} (h : a.toText = b.toText) : a = b :=
  bytes_inj.1 (Vector.toList_inj.1 (Hex.ofBytes_inj (String.ofList_injective h)))

/-! ## Reading -/

theorem nibble?_eq_ok_iff {b : UInt8} {n : Nat} :
    nibble? b = .ok n ↔ b.toNat < 0x80 ∧ Hex.value? (Char.ofNat b.toNat) = some n := by
  unfold nibble?
  split
  next h => cases Hex.value? (Char.ofNat b.toNat) <;> simp [h]
  next h => simp [h]

theorem isDigit_iff {b : UInt8} : Hex.IsDigit b ↔ ∃ n, nibble? b = .ok n := by
  simp only [nibble?_eq_ok_iff, exists_and_left, ← Option.isSome_iff_exists]
  constructor
  · intro h
    have hascii : b.toNat < 0x80 := by
      rcases h with ⟨-, h⟩ | ⟨-, h⟩ | ⟨-, h⟩ <;>
        exact Nat.lt_of_le_of_lt (UInt8.le_iff_toNat_le.1 h) (by decide)
    exact ⟨hascii, (Hex.value?_ascii hascii).1.2 (by simpa using h)⟩
  · rintro ⟨hascii, hvalue⟩
    simpa using (Hex.value?_ascii hascii).1.1 hvalue

theorem nibble?_digit {n : Nat} (h : n < 16) :
    nibble? (UInt8.ofNat (Hex.digit n).toNat) = .ok n := by
  have hascii := Hex.digit_ascii h
  have hmod : (UInt8.ofNat (Hex.digit n).toNat).toNat = (Hex.digit n).toNat := by
    rw [UInt8.toNat_ofNat', Nat.mod_eq_of_lt (by omega)]
  rw [nibble?_eq_ok_iff, hmod, Char.ofNat_toNat]
  exact ⟨hascii, Hex.value?_digit h⟩

/-- What is read off a byte is written as the digit that stood there, in lower case. -/
theorem digit_of_nibble? {b : UInt8} {n : Nat} (h : nibble? b = .ok n) :
    n < 16 ∧ Hex.digit n = (Char.ofNat b.toNat).toLower := by
  obtain ⟨hascii, hvalue⟩ := nibble?_eq_ok_iff.1 h
  exact (Hex.value?_ascii hascii).2 n hvalue

theorem readBytes_cons_cons {a b : UInt8} {l m : List UInt8} :
    readBytes (a :: b :: l) = .ok m ↔ ∃ i j k, nibble? a = .ok i ∧ nibble? b = .ok j ∧
      readBytes l = .ok k ∧ UInt8.ofNat (16 * i + j) :: k = m := by
  rw [readBytes]
  cases nibble? a with
  | error e => simp [bind, Except.bind]
  | ok i =>
      cases nibble? b with
      | error e => simp [bind, Except.bind]
      | ok j => cases readBytes l <;> simp [bind, Except.bind, pure, Except.pure]

theorem eq_nil_of_short {l : List UInt8} (hshort : ∀ a b r, l = a :: b :: r → False)
    (heven : l.length % 2 = 0) : l = [] := by
  rcases l with - | ⟨a, - | ⟨b, l⟩⟩
  · rfl
  · simp at heven
  · exact (hshort a b l rfl).elim

theorem exists_readBytes_iff (l : List UInt8) (heven : l.length % 2 = 0) :
    (∃ m, readBytes l = .ok m) ↔ ∀ b ∈ l, Hex.IsDigit b := by
  induction l using readBytes.induct with
  | case1 a b l ih =>
      simp only [List.length_cons] at heven
      have hrest := ih (by omega)
      simp only [readBytes_cons_cons, List.forall_mem_cons, isDigit_iff] at hrest ⊢
      rw [← hrest]
      constructor
      · rintro ⟨m, i, j, k, hi, hj, hk, -⟩
        exact ⟨⟨i, hi⟩, ⟨j, hj⟩, ⟨k, hk⟩⟩
      · rintro ⟨⟨i, hi⟩, ⟨j, hj⟩, ⟨k, hk⟩⟩
        exact ⟨_, i, j, k, hi, hj, hk, rfl⟩
  | case2 l hshort =>
      rw [eq_nil_of_short hshort heven]
      simp [readBytes]

theorem ofBytes_of_readBytes {l m : List UInt8} (h : readBytes l = .ok m)
    (heven : l.length % 2 = 0) :
    Hex.ofBytes m = l.map fun b => (Char.ofNat b.toNat).toLower := by
  induction l using readBytes.induct generalizing m with
  | case1 a b l ih =>
      simp only [List.length_cons] at heven
      obtain ⟨i, j, k, hi, hj, hk, rfl⟩ := readBytes_cons_cons.1 h
      obtain ⟨hi, hhigh⟩ := digit_of_nibble? hi
      obtain ⟨hj, hlow⟩ := digit_of_nibble? hj
      have hvalue : (UInt8.ofNat (16 * i + j)).toNat = 16 * i + j := by
        rw [UInt8.toNat_ofNat', Nat.mod_eq_of_lt (by omega)]
      have hrest := ih hk (by omega)
      simp only [Hex.ofBytes] at hrest
      simp only [Hex.ofBytes, List.flatMap_cons, hrest, Hex.ofByte, hvalue, List.map_cons, ← hhigh,
        ← hlow, List.cons_append, List.nil_append]
      rw [show (16 * i + j) / 16 = i by omega, show (16 * i + j) % 16 = j by omega]
  | case2 l hshort =>
      rw [eq_nil_of_short hshort heven] at h ⊢
      cases h
      rfl

theorem readBytes_ofBytes (l : List UInt8) :
    readBytes ((Hex.ofBytes l).map fun c => UInt8.ofNat c.toNat) = .ok l := by
  induction l with
  | nil => rfl
  | cons b l ih =>
      have hlt := b.toNat_lt
      rw [Hex.ofBytes, List.flatMap_cons, ← Hex.ofBytes]
      refine readBytes_cons_cons.2
        ⟨_, _, _, nibble?_digit (by omega), nibble?_digit (by omega), ih, ?_⟩
      rw [Nat.div_add_mod, UInt8.ofNat_toNat]

theorem length_of_readBytes {l m : List UInt8} (h : readBytes l = .ok m)
    (heven : l.length % 2 = 0) : l.length = 2 * m.length := by
  rw [← Hex.length_ofBytes, ofBytes_of_readBytes h heven, List.length_map]

/-- A text is read as a digest if it is 64 bytes long and they write its bytes. -/
theorem read_eq_ok_iff {t : String} {d : Digest} : read t = .ok d ↔
    (Text.bytes t).length = 64 ∧ readBytes (Text.bytes t) = .ok d.bytes.toList := by
  have htext : t.toUTF8.data.toList = Text.bytes t := rfl
  unfold read
  rw [htext]
  by_cases hlength : (Text.bytes t).length = 64
  · cases hbytes : readBytes (Text.bytes t) with
    | error e => simp [hlength, hbytes, bind, Except.bind]
    | ok m =>
        have hsize : m.toArray.size = 32 := by
          have := length_of_readBytes hbytes (by omega)
          simp only [List.size_toArray]
          omega
        simp only [ne_eq, hlength, not_true_eq_false, if_false, hbytes, bind, Except.bind, pure,
          Except.pure, true_and, Except.ok.injEq, dif_pos hsize]
        rw [← bytes_inj, ← Vector.toList_inj, Vector.toList_mk]
  · simp [hlength, bind, Except.bind, throw, throwThe, MonadExceptOf.throw]

theorem parse_eq_ok_iff {t : String} {d : Digest} : parse t = .ok d ↔ read t = .ok d := by
  unfold parse
  cases read t <;> simp

theorem exists_parse_iff (t : String) : (∃ d, parse t = .ok d) ↔
    (Text.bytes t).length = 64 ∧ ∀ b ∈ Text.bytes t, Hex.IsDigit b := by
  simp only [parse_eq_ok_iff, read_eq_ok_iff, exists_and_left]
  refine and_congr_right fun hlength => ?_
  have heven : (Text.bytes t).length % 2 = 0 := by omega
  rw [← exists_readBytes_iff _ heven]
  constructor
  · rintro ⟨d, hd⟩
    exact ⟨_, hd⟩
  · rintro ⟨m, hm⟩
    have hsize := length_of_readBytes hm heven
    exact ⟨⟨⟨m.toArray, by simp only [List.size_toArray]; omega⟩⟩, hm⟩

/-! ## Writing -/

theorem bytes_toText (d : Digest) :
    Text.bytes d.toText = d.digits.map fun c => UInt8.ofNat c.toNat :=
  Text.bytes_ofList Hex.ofBytes_ascii

theorem length_digits (d : Digest) : d.digits.length = 64 := by
  rw [digits, Hex.length_ofBytes, Vector.length_toList]

theorem parse_toText (d : Digest) : parse d.toText = .ok d := by
  rw [parse_eq_ok_iff, read_eq_ok_iff, bytes_toText, List.length_map, length_digits]
  exact ⟨rfl, readBytes_ofBytes _⟩

theorem toText_of_parse {t : String} {d : Digest} (h : parse t = .ok d) : d.toText = t.toLower := by
  have hascii : ∀ b ∈ Text.bytes t, b.toNat < 0x80 := fun b hb => by
    obtain ⟨n, hn⟩ := isDigit_iff.1 (((exists_parse_iff t).1 ⟨d, h⟩).2 b hb)
    exact (nibble?_eq_ok_iff.1 hn).1
  obtain ⟨hlength, hbytes⟩ := read_eq_ok_iff.1 (parse_eq_ok_iff.1 h)
  have hdigits := ofBytes_of_readBytes hbytes (by omega)
  rw [← String.toList_inj, toText, String.toList_ofList, digits, hdigits, Text.toList_toLower,
    Text.toList_eq_map_bytes hascii, List.map_map]
  rfl

/-! ## Order -/

theorem compare_bytes_eq_lt_iff {l m : List UInt8} : compare l m = .lt ↔ l < m := by
  induction l generalizing m with
  | nil => cases m <;> simp [List.compare_nil_cons]
  | cons a l ih =>
      cases m with
      | nil => simp [List.compare_cons_nil]
      | cons b m =>
          have hhead : compare a b = .lt ↔ a < b := compareOfLessAndEq_eq_lt
          rw [List.compare_cons_cons, Ordering.then_eq_lt, List.cons_lt_cons_iff, hhead, ih,
            Std.LawfulEqOrd.compare_eq_iff_eq]

theorem compare_toText_of_lt {d e : Digest} (h : compare d e = .lt) :
    compare d.toText e.toText = .lt := by
  have hbytes : d.bytes.toList < e.bytes.toList :=
    compare_bytes_eq_lt_iff.1 (Vector.compare_eq_compare_toList.symm.trans h)
  have hdigits : d.toText.toList < e.toText.toList := by
    rw [toText, toText, String.toList_ofList, String.toList_ofList]
    exact Hex.ofBytes_lt hbytes
  exact compareOfLessAndEq_eq_lt.2 (String.lt_iff.2 hdigits)

/-- Digests stand in the order of their texts. -/
theorem compare_toText (d e : Digest) : compare d.toText e.toText = compare d e := by
  cases h : compare d e with
  | lt => exact compare_toText_of_lt h
  | eq => rw [Std.LawfulEqOrd.eq_of_compare h, Std.ReflOrd.compare_self]
  | gt => exact Std.OrientedCmp.gt_of_lt (compare_toText_of_lt (Std.OrientedCmp.lt_of_gt h))

theorem compare_eq_lt_iff {d e : Digest} :
    compare d e = .lt ↔ Text.bytes d.toText < Text.bytes e.toText := by
  rw [← compare_toText, Text.compare_eq_lt_iff]

/-! ## JSON -/

theorem parseJson?_eq_some_iff {cs : List Char} {d : Digest} :
    parseJson? cs = some d ↔ ∃ t r, Json.readString cs = some (t, r) ∧ Json.skipBlank r = [] ∧
      parse t = .ok d := by
  have hok {t : String} : (parse t).toOption = some d ↔ parse t = .ok d := by
    cases parse t <;> simp [Except.toOption]
  unfold parseJson?
  rcases Json.readString cs with - | ⟨t, r⟩
  · simp
  · simp [hok, List.isEmpty_iff, and_assoc]

theorem readString_quote_nil (t : String) : Json.readString (Json.quote t) = some (t, []) := by
  simpa using Json.readString_quote t []

theorem parseJson?_quote {t : String} {d : Digest} :
    parseJson? (Json.quote t) = some d ↔ parse t = .ok d := by
  simp [parseJson?_eq_some_iff, readString_quote_nil, Json.skipBlank]

theorem render_of_parse {t : String} {d : Digest} (h : parse t = .ok d) :
    d.render = Json.quote t.toLower :=
  congrArg Json.quote (toText_of_parse h)

/-- The edges of a commit are written by ascending text of their parents, as they are held by
ascending parent. -/
theorem contentJson_fields (epoch : Nat) (parents : Edges Digest) (level : Nat) : ∃ fields,
    IdRule.contentJson epoch parents level = .arr [.nat epoch, .nat level, .obj fields] ∧
      fields.map (·.1) = parents.keys.map toText ∧
      (fields.map (·.1)).Pairwise fun s t => Text.bytes s < Text.bytes t := by
  refine ⟨_, rfl, ?_, ?_⟩
  · simp [OrdMap.keys]
  · simp only [List.map_map, List.pairwise_map, Function.comp_apply]
    exact parents.ascending.imp compare_eq_lt_iff.1

/-- Texts and JSON texts of digests. The accepted texts are those of 64 bytes that are all
hexadecimal digits. Every digest is read back from what is written for it, and every accepted text
is written in lower case. Digests stand in the order of their texts, and so do the edges of a
commit. -/
theorem text_faithful :
    (∀ t, (∃ d, parse t = .ok d) ↔
      (Text.bytes t).length = 64 ∧ ∀ b ∈ Text.bytes t, Hex.IsDigit b) ∧
    (∀ d : Digest, parse d.toText = .ok d ∧ parseJson? d.render = some d) ∧
    (∀ t d, parse t = .ok d → d.toText = t.toLower ∧ parseJson? (Json.quote t) = some d) ∧
    (∀ cs d, parseJson? cs = some d → ∃ t r, Json.readString cs = some (t, r) ∧
      Json.skipBlank r = [] ∧ parse t = .ok d ∧ d.render = Json.quote t.toLower) ∧
    (∀ d e : Digest, compare d e = compare d.toText e.toText ∧
      (compare d e = .lt ↔ Text.bytes d.toText < Text.bytes e.toText)) ∧
    ∀ epoch (parents : Edges Digest) level, ∃ fields,
      IdRule.contentJson epoch parents level = .arr [.nat epoch, .nat level, .obj fields] ∧
      fields.map (·.1) = parents.keys.map toText ∧
      (fields.map (·.1)).Pairwise fun s t => Text.bytes s < Text.bytes t := by
  refine ⟨exists_parse_iff, fun d => ?_, fun t d h => ?_, fun cs d h => ?_, fun d e => ?_,
    contentJson_fields⟩
  · exact ⟨parse_toText d, parseJson?_quote.2 (parse_toText d)⟩
  · exact ⟨toText_of_parse h, parseJson?_quote.2 h⟩
  · obtain ⟨t, r, hread, hrest, hparse⟩ := parseJson?_eq_some_iff.1 h
    exact ⟨t, r, hread, hrest, hparse, render_of_parse hparse⟩
  · exact ⟨(compare_toText d e).symm, compare_eq_lt_iff⟩

/-- A digest in capital letters, with blanks around its JSON text. -/
theorem text_faithful_capitals :
    let t := "00FF0123456789ABCDEF00112233445566778899AABBCCDDEEFF0123456789aB"
    let lower := "00ff0123456789abcdef00112233445566778899aabbccddeeff0123456789ab"
    ∃ d, parse t = .ok d ∧ d.toText = lower ∧
      parseJson? (' ' :: (Json.quote t ++ [' '])) = some d ∧ d.render = Json.quote lower := by
  intro t lower
  have hlower : t.toLower = lower := by
    rw [← String.toList_inj, Text.toList_toLower]
    decide
  obtain ⟨d, hd⟩ := (text_faithful.1 t).2 (by decide +kernel)
  have hread : Json.readString (' ' :: (Json.quote t ++ [' '])) = some (t, [' ']) :=
    Json.readString_quote t [' ']
  refine ⟨d, hd, (text_faithful.2.2.1 t d hd).1.trans hlower, ?_, ?_⟩
  · exact parseJson?_eq_some_iff.2 ⟨t, [' '], hread, rfl, hd⟩
  · rw [render_of_parse hd, hlower]

end Confluence.Digest
