import Confluence.Proofs.Document.Net

/-!
# Canonical lists

A squashed list is known by the two documents that it leads between: it is their difference, one
operation with the changes of the keys on which they differ, or none if they do not differ. So it
does not matter in which portions a list is squashed, as long as every portion fits the document
that it is made on. The list that writes a document into the empty one is the case that checkouts
answer with.
-/

namespace Confluence

open Operation

namespace Document

variable {d e s : Document} {l l' : List Operation}

/-! ## The difference of two documents -/

def changes (d e : Document) : OrdMap String Change :=
  .ofList (((d.entries.keys ++ e.entries.keys).filter fun k => d.get? k ≠ e.get? k).map
    fun k => (k, ⟨d.get? k, e.get? k⟩))

/-- The canonical list between two documents: no operation if they are equal, and otherwise the one
that changes the keys on which they differ. -/
def difference (d e : Document) : List Operation := if d = e then [] else [⟨d.changes e⟩]

theorem mem_keys_iff {k : String} : k ∈ d.entries.keys ↔ d.get? k ≠ none := by
  rw [OrdMap.mem_keys, ← Option.isSome_iff_exists, Option.isSome_iff_ne_none]
  rfl

theorem get?_changes (d e : Document) (k : String) :
    (d.changes e).get? k = if d.get? k = e.get? k then none else some ⟨d.get? k, e.get? k⟩ := by
  rw [changes, OrdMap.get?_ofList_map]
  by_cases hk : d.get? k = e.get? k
  · simp [hk]
  · have hmem : k ∈ d.entries.keys ∨ k ∈ e.entries.keys := by
      rw [mem_keys_iff, mem_keys_iff]
      by_contra hnone
      rw [not_or, not_ne_iff, not_ne_iff] at hnone
      exact hk (hnone.1.trans hnone.2.symm)
    simp [hk, hmem]

theorem isEmpty_changes_iff : (d.changes e).isEmpty = true ↔ d = e := by
  rw [OrdMap.isEmpty_iff]
  constructor
  · intro h
    refine ext fun k => by_contra fun hk => ?_
    have hchange := h k
    rw [get?_changes, if_neg hk] at hchange
    cases hchange
  · rintro rfl k
    rw [get?_changes, if_pos rfl]

/-! ## Squashed lists -/

def written (d : Document) : List Operation :=
  if d.entries.isEmpty then [] else [⟨d.entries.map fun v => ⟨none, some v⟩⟩]

theorem squash_eq (l : List Operation) :
    squash l = if (effect l).isEmpty then [] else [⟨effect l⟩] := rfl

namespace Leads

theorem effect_eq (h : Leads d l e) : effect l = d.changes e :=
  OrdMap.ext fun k => by rw [h.get?_effect, get?_changes]

/-- A list squashes to the difference between the documents that it leads between. -/
theorem squash_eq_difference (h : Leads d l e) : Operation.squash l = d.difference e := by
  rw [squash_eq, h.effect_eq, difference]
  exact if_congr isEmpty_changes_iff rfl rfl

theorem squash_unique (h : Leads d l e) (h' : Leads d l' e) :
    Operation.squash l = Operation.squash l' := by
  rw [h.squash_eq_difference, h'.squash_eq_difference]

theorem squash_written (h : Leads ∅ l d) : Operation.squash l = d.written := by
  have heffect : effect l = d.entries.map fun v => ⟨none, some v⟩ := by
    refine OrdMap.ext fun k => ?_
    rw [h.get?_effect, OrdMap.get?_map]
    change (if none = d.entries.get? k then none else some (⟨none, d.entries.get? k⟩ : Change)) = _
    cases d.entries.get? k <;> rfl
  have hempty : (effect l).isEmpty = d.entries.isEmpty := by
    rw [heffect]
    exact List.isEmpty_map
  rw [squash_eq, hempty, heffect, written]

end Leads

theorem leads_written (d : Document) : Leads ∅ d.written d := by
  refine .of_get?_net fun k => ?_
  have hempty : (∅ : Document).get? k = none := rfl
  rw [hempty, written]
  split
  next h =>
    have hnone : d.get? k = none := OrdMap.isEmpty_iff.1 h k
    rw [get?_net_nil, hnone, if_pos rfl]
  next =>
    rw [get?_net_singleton, OrdMap.get?_map]
    change _ = if none = d.entries.get? k then none else some (⟨none, d.entries.get? k⟩ : Change)
    cases d.entries.get? k <;> rfl

/-- A list that fits a document squashes to the difference between that document and the one in
which it ends. Hence lists that fit one document and end in one document squash alike, squashing
again changes nothing, the squashed list does what the list did, and what follows may be appended
before squashing or after it. -/
theorem squash_canonical (hl : s.Anchors l) :
    squash l = s.difference (s.applyAll l) ∧
      (∀ l', s.Anchors l' → s.applyAll l' = s.applyAll l → squash l' = squash l) ∧
      squash (squash l) = squash l ∧
      s.Anchors (squash l) ∧ s.applyAll (squash l) = s.applyAll l ∧
      ∀ r, (s.applyAll l).Anchors r →
        squash (l ++ r) = squash (squash l ++ r) ∧ squash (l ++ r) = squash (l ++ squash r) := by
  have h : Leads s l (s.applyAll l) := .of_anchors hl
  have hs : Leads s (squash l) (s.applyAll l) := h.squash
  refine ⟨h.squash_eq_difference, fun l' hl' heq => ?_, hs.squash_unique h, hs.anchors,
    hs.applyAll_eq, fun r hr => ?_⟩
  · have h' : Leads s l' (s.applyAll l) := ⟨hl', heq⟩
    exact h'.squash_unique h
  · have hr : Leads (s.applyAll l) r ((s.applyAll l).applyAll r) := .of_anchors hr
    have happend := h.append hr
    exact ⟨happend.squash_unique (hs.append hr), happend.squash_unique (h.append hr.squash)⟩

def drafted : Document := empty.put "title" (some "draft")

def restored : List Operation :=
  [⟨.ofList [("note", ⟨none, some "a"⟩), ("title", ⟨some "draft", none⟩)]⟩,
    .single "title" ⟨none, some "draft"⟩]

def noted : List Operation := [.single "note" ⟨none, some "z"⟩, .single "note" ⟨some "z", some "a"⟩]

def retitled : List Operation :=
  [⟨.ofList [("note", ⟨some "a", none⟩), ("title", ⟨some "draft", some "b"⟩)]⟩,
    .single "title" ⟨some "b", some "final"⟩]

theorem squash_canonical_restored :
    drafted.Anchors restored ∧
      squash restored = drafted.difference (drafted.applyAll restored) ∧
      (drafted.Anchors noted ∧ drafted.applyAll noted = drafted.applyAll restored ∧
        squash noted = squash restored) ∧
      squash (squash restored) = squash restored ∧
      drafted.Anchors (squash restored) ∧
      drafted.applyAll (squash restored) = drafted.applyAll restored ∧
      (drafted.applyAll restored).Anchors retitled ∧
      squash (restored ++ retitled) = squash (squash restored ++ retitled) ∧
      squash (restored ++ retitled) = squash (restored ++ squash retitled) := by
  have hl : drafted.Anchors restored := by decide
  have hn : drafted.Anchors noted := by decide
  have heq : drafted.applyAll noted = drafted.applyAll restored := by decide
  have hr : (drafted.applyAll restored).Anchors retitled := by decide
  obtain ⟨hdifference, hunique, hagain, hanchors, happly, happend⟩ := squash_canonical hl
  exact ⟨hl, hdifference, ⟨hn, heq, hunique noted hn heq⟩, hagain, hanchors, happly, hr,
    happend retitled hr⟩

example : squash ([.single "k" ⟨some "x", some "x"⟩] ++ [.single "k" ⟨some "y", some "z"⟩]) ≠
    squash (squash [.single "k" ⟨some "x", some "x"⟩] ++ [.single "k" ⟨some "y", some "z"⟩]) := by
  decide

end Document

end Confluence
