import Confluence.Document.Json
import Confluence.Proofs.Text.ByteOrder
import Confluence.Proofs.Text.Reading

/-!
# Operations through JSON

What is written for an operation is read back as the operation. A text that is read need not be
what is written for its operation: it may hold blanks, other escapes, fields in another order, a
missing or a foreign field, a repeated key. Writing the operation brings all these texts to one, in
which the keys ascend by their bytes and `prev` stands before `next`.
-/

namespace Confluence

/-! ## Changes -/

namespace Change

theorem folds_fields (c : Change) :
    Json.Folds readField [("prev", .ofOption c.prev), ("next", .ofOption c.next)] ⟨none, none⟩
      ⟨some c.prev, some c.next⟩ := by
  refine ⟨⟨some c.prev, none⟩, fun r => ?_, ⟨some c.prev, some c.next⟩, fun r => ?_, rfl⟩
  · simp [readField, Json.readOptional_ofOption]
  · simp [readField, Json.readOptional_ofOption]

theorem read_toJson (c : Change) (r : List Char) : read (c.toJson.compact ++ r) = some (c, r) := by
  have hobject := Json.readObject_obj c.folds_fields r
  rw [← toJson] at hobject
  have hblank : Json.skipBlank (c.toJson.compact ++ r) = c.toJson.compact ++ r := rfl
  have harray : ∀ cs, c.toJson.compact ++ r ≠ '[' :: cs := by
    intro cs
    simp [toJson, Json.compact]
  rw [read, hblank]
  split
  next cs h => exact absurd h (harray cs)
  next => rw [hobject]; rfl

end Change

/-! ## Operations -/

namespace Operation

theorem folds_changes (m : OrdMap String Change) (l : List (String × Change)) :
    Json.Folds (fun m k cs => (Change.read cs).map fun r => (OrdMap.insert m k r.1, r.2))
      (l.map fun e => (e.1, e.2.toJson)) m (m.insertMany l) := by
  induction l generalizing m with
  | nil => rfl
  | cons e l ih =>
      have hread (r : List Char) : (Change.read (e.2.toJson.compact ++ r)).map
          (fun r => (m.insert e.1 r.1, r.2)) = some (m.insert e.1 e.2, r) := by
        rw [Change.read_toJson, Option.map_some]
      exact ⟨m.insert e.1 e.2, hread, ih _⟩

/-- Keys may come in any order and more than once: the last change of a key counts. -/
theorem parse?_compact (l : List (String × Change)) :
    parse? (Json.obj (l.map fun e => (e.1, e.2.toJson))).compact = some ⟨.ofList l⟩ := by
  have hobject := Json.readObject_obj (folds_changes ∅ l) []
  rw [List.append_nil] at hobject
  unfold parse?
  rw [hobject]
  rfl

theorem parse?_render (o : Operation) : parse? o.render = some o := by
  have hread := parse?_compact o.changes.toList
  rwa [OrdMap.ofList_toList, ← toJson, ← render] at hread

theorem render_inj {o p : Operation} (h : o.render = p.render) : o = p :=
  Option.some.inj ((parse?_render o).symm.trans ((congrArg parse? h).trans (parse?_render p)))

/-! ## The text of an operation -/

def member (e : String × Change) : List Char :=
  Json.quote e.1 ++ ':' :: '\x7b' :: Json.quote "prev" ++ ':' :: (Json.ofOption e.2.prev).compact ++
    ',' :: Json.quote "next" ++ ':' :: (Json.ofOption e.2.next).compact ++ ['\x7d']

theorem member_eq (e : String × Change) :
    member e = Json.quote e.1 ++ ':' :: e.2.toJson.compact := by
  simp [member, Change.toJson, Json.compact, Json.compactFields]

theorem member_append_compactFields (e : String × Change) (l : List (String × Change)) :
    member e ++ Json.compactFields (l.map fun e => (e.1, e.2.toJson)) =
      [','].intercalate ((e :: l).map member) ++ ['\x7d'] := by
  induction l generalizing e with
  | nil => simp [Json.compactFields, List.intercalate_singleton]
  | cons a l ih =>
      have hrest := ih a
      rw [member_eq a] at hrest
      simp only [List.map_cons, List.cons_append, List.append_assoc] at hrest
      simp only [List.map_cons, Json.compactFields, List.cons_append, List.append_assoc,
        List.intercalate_cons_cons, List.nil_append]
      rw [hrest]

/-- The text of an operation holds its keys in ascending order of their bytes, each with the value
before and the value after it. -/
theorem render_eq (o : Operation) :
    o.render = '\x7b' :: [','].intercalate (o.changes.toList.map member) ++ ['\x7d'] ∧
      o.changes.keys.Pairwise fun j k => Text.bytes j < Text.bytes k := by
  constructor
  · rw [render, toJson]
    cases o.changes.toList with
    | nil => rfl
    | cons e l =>
        rw [List.cons_append, ← member_append_compactFields, member_eq]
        simp [Json.compact]
  · rw [OrdMap.keys, List.pairwise_map]
    exact o.changes.ascending.imp Text.compare_eq_lt_iff.1

/-- Operations and their texts. An operation is read back from its text; every text of an operation
is brought to a text of the same operation, which is one for all of them; and that text holds the
keys in ascending order of their bytes. -/
theorem text_canonical :
    (∀ o : Operation, parse? o.render = some o) ∧
    (∀ text o, parse? text = some o → parse? o.render = some o ∧
      ∀ other p, parse? other = some p →
        (o.render = p.render ↔ ∀ k, o.changes.get? k = p.changes.get? k)) ∧
    ∀ o : Operation,
      o.render = '\x7b' :: [','].intercalate (o.changes.toList.map member) ++ ['\x7d'] ∧
      o.changes.keys.Pairwise fun j k => Text.bytes j < Text.bytes k := by
  refine ⟨parse?_render, fun text o _ => ⟨parse?_render o, fun other p _ => ?_⟩, render_eq⟩
  constructor
  · intro h k
    rw [render_inj h]
  · intro h
    have hop : o = p := congrArg mk (OrdMap.ext h)
    rw [hop]

/-- A text with blanks, escapes, a repeated key and a foreign field, and one whose changes are
arrays or lack a field. -/
theorem text_canonical_scattered :
    let text := " \x7b\"b\" : \x7b\"next\":\"x\", \"seen\":[1, \x7b\x7d]\x7d," ++
      " \"\\u0061\":[\"\\ud83d\\ude00\\n\", null]," ++
      " \"b\":\x7b\"next\":\"y\",\"prev\":null\x7d \x7d "
    let other := "\x7b\"b\":[null,\"y\"],\"a\":\x7b\"prev\":\"😀\\u000A\"\x7d\x7d"
    let written := "\x7b\"a\":\x7b\"prev\":\"😀\\n\",\"next\":null\x7d," ++
      "\"b\":\x7b\"prev\":null,\"next\":\"y\"\x7d\x7d"
    ∃ o p, parse? text.toList = some o ∧ parse? other.toList = some p ∧
      o.render = written.toList ∧ parse? written.toList = some o ∧
      ∀ k, o.changes.get? k = p.changes.get? k := by
  intro text other written
  have htext : (parse? text.toList).map render = some written.toList := by decide +kernel
  have hother : (parse? other.toList).map render = some written.toList := by decide +kernel
  obtain ⟨o, ho, hwritten⟩ := Option.map_eq_some_iff.1 htext
  obtain ⟨p, hp, hsame⟩ := Option.map_eq_some_iff.1 hother
  obtain ⟨hback, hchanges⟩ := text_canonical.2.1 text.toList o ho
  refine ⟨o, p, ho, hp, hwritten, hwritten ▸ hback, ?_⟩
  exact (hchanges other.toList p hp).1 (hwritten.trans hsame.symm)

end Operation

end Confluence
