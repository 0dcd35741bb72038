import Confluence.Document.Algebra
import Mathlib.Tactic.Common

/-!
# Net changes and the lists that lead from one document to another

What a list of operations does to a key is told by the first and the last change that it makes to
the key. `chain` puts the changes of two stretches together, and the net change of an appended list
is the chain of the net changes of its parts.

A list is anchored at a document if its first change of every key expects the value that the
document has. `Leads d l e` says that `l` is anchored at `d` and turns it into `e`. Such a list is
known by the two documents alone, up to squashing: its effect is the difference between them.
-/

namespace Confluence

open Std

namespace Change

/-- The change of a key over two stretches, each of which may leave the key alone. -/
def chain : Option Change → Option Change → Option Change
  | none, y => y
  | some c, none => some c
  | some c, some d => some ⟨c.prev, d.next⟩

@[simp] theorem chain_none_left (y : Option Change) : chain none y = y := rfl

@[simp] theorem chain_none_right (x : Option Change) : chain x none = x := by
  cases x <;> rfl

theorem chain_assoc (x y z : Option Change) : chain (chain x y) z = chain x (chain y z) := by
  cases x <;> cases y <;> cases z <;> rfl

def after (c : Option Change) (v : Option String) : Option String := c.elim v Change.next

@[simp] theorem after_none (v : Option String) : after none v = v := rfl

@[simp] theorem after_some (c : Change) (v : Option String) : after (some c) v = c.next := rfl

theorem after_chain (x y : Option Change) (v : Option String) :
    after (chain x y) v = after y (after x v) := by
  cases x <;> cases y <;> rfl

end Change

namespace Operation

open Change

theorem get?_absorb (m : OrdMap String Change) (e : String × Change) (k : String) :
    (absorb m e).get? k = if e.1 = k then chain (m.get? k) (some e.2) else m.get? k := by
  unfold absorb
  by_cases hk : e.1 = k
  · subst hk
    cases h : m.get? e.1 with
    | none => simp [OrdMap.get?_insert]
    | some c => simp [OrdMap.get?_insert, chain]
  · have hk' : ¬k = e.1 := fun h => hk h.symm
    cases h : m.get? e.1 with
    | none => simp [OrdMap.get?_insert, hk, hk']
    | some c => simp [OrdMap.get?_insert, hk, hk']

/-- Within one operation every key has one change, so absorbing its changes chains that one. -/
theorem get?_foldl_absorb {l : List (String × Change)}
    (h : l.Pairwise fun a b => compare a.1 b.1 = .lt) (m : OrdMap String Change) (k : String) :
    (l.foldl absorb m).get? k = chain (m.get? k) (OrdMap.lookup k l) := by
  induction l generalizing m with
  | nil => simp [OrdMap.lookup]
  | cons e l ih =>
      rw [List.pairwise_cons] at h
      rw [List.foldl_cons, ih h.2, get?_absorb]
      by_cases hk : e.1 = k
      · subst hk
        have hl : OrdMap.lookup e.1 l = none := OrdMap.lookup_eq_none_of_lt h.1
        simp [OrdMap.lookup, hl, ReflCmp.compare_self]
      · rw [if_neg hk]
        have hne : compare k e.1 ≠ .eq := fun he => hk (LawfulEqCmp.eq_of_compare he).symm
        cases hc : compare k e.1 with
        | lt =>
            have hl : OrdMap.lookup k l = none :=
              OrdMap.lookup_eq_none_of_lt fun a ha => TransCmp.lt_trans hc (h.1 a ha)
            simp [OrdMap.lookup, hc, hl]
        | eq => exact absurd hc hne
        | gt => simp [OrdMap.lookup, hc]

theorem get?_foldl_absorb_flatMap (l : List Operation) (m : OrdMap String Change) (k : String) :
    ((l.flatMap fun o => o.changes.toList).foldl absorb m).get? k =
      chain (m.get? k) ((net l).get? k) := by
  induction l generalizing m with
  | nil => simp [net]
  | cons o l ih =>
      have hcons (m : OrdMap String Change) :
          (((o :: l).flatMap fun o => o.changes.toList).foldl absorb m).get? k =
            chain (chain (m.get? k) (o.changes.get? k)) ((net l).get? k) := by
        rw [List.flatMap_cons, List.foldl_append, ih,
          get?_foldl_absorb o.changes.ascending]
        rfl
      rw [net, hcons, hcons, chain_assoc, OrdMap.get?_empty, chain_none_left]

@[simp] theorem get?_net_nil (k : String) : (net []).get? k = none := rfl

theorem get?_net_append (a b : List Operation) (k : String) :
    (net (a ++ b)).get? k = chain ((net a).get? k) ((net b).get? k) := by
  rw [net, List.flatMap_append, List.foldl_append, get?_foldl_absorb_flatMap]
  rfl

theorem get?_net_singleton (o : Operation) (k : String) :
    (net [o]).get? k = o.changes.get? k := by
  rw [net, List.flatMap_singleton, get?_foldl_absorb o.changes.ascending]
  rfl

theorem get?_net_cons (o : Operation) (l : List Operation) (k : String) :
    (net (o :: l)).get? k = chain (o.changes.get? k) ((net l).get? k) := by
  rw [← List.singleton_append, get?_net_append, get?_net_singleton]

theorem get?_effect (l : List Operation) (k : String) :
    (effect l).get? k = ((net l).get? k).filter fun c => !c.isNoop :=
  OrdMap.get?_filter ..

theorem get?_net_listOf (m : OrdMap String Change) (k : String) :
    (net (listOf m)).get? k = (m.get? k).filter fun c => !c.isNoop := by
  have hf := OrdMap.get?_filter (fun _ c => !c.isNoop) m k
  unfold listOf
  by_cases h : (m.filter fun _ c => !c.isNoop).isEmpty
  · rw [if_pos h, ← hf, OrdMap.isEmpty_iff.1 h, get?_net_nil]
  · rw [if_neg h, get?_net_singleton, hf]

theorem get?_net_squash (l : List Operation) (k : String) :
    (net (squash l)).get? k = (effect l).get? k := by
  rw [squash, get?_net_listOf, get?_effect]

theorem effect_squash (l : List Operation) : effect (squash l) = effect l := by
  refine OrdMap.ext fun k => ?_
  rw [get?_effect, get?_net_squash, get?_effect, Option.filter_filter]
  simp

def firstChange? (l : List Operation) (k : String) : Option Change :=
  l.findSome? fun o => o.changes.get? k

theorem map_prev_net (l : List Operation) (k : String) :
    ((net l).get? k).map Change.prev = (firstChange? l k).map Change.prev := by
  induction l with
  | nil => rfl
  | cons o l ih =>
      rw [get?_net_cons, firstChange?, List.findSome?_cons]
      cases h : o.changes.get? k with
      | none =>
          rw [chain_none_left, ih]
          rfl
      | some c => cases (net l).get? k <;> rfl

end Operation

namespace Document

open Change Operation

theorem get?_foldl_put {l : List (String × Change)}
    (h : l.Pairwise fun a b => compare a.1 b.1 = .lt) (d : Document) (k : String) :
    (l.foldl (fun d e => d.put e.1 e.2.next) d).get? k = after (OrdMap.lookup k l) (d.get? k) := by
  induction l generalizing d with
  | nil => rfl
  | cons e l ih =>
      rw [List.pairwise_cons] at h
      rw [List.foldl_cons, ih h.2]
      by_cases hk : k = e.1
      · subst hk
        have hl : OrdMap.lookup e.1 l = none := OrdMap.lookup_eq_none_of_lt h.1
        simp [OrdMap.lookup, hl, ReflCmp.compare_self, get?_put_self]
      · rw [get?_put_of_ne _ _ hk]
        have hne : compare k e.1 ≠ .eq := fun he => hk (LawfulEqCmp.eq_of_compare he)
        cases hc : compare k e.1 with
        | lt =>
            have hl : OrdMap.lookup k l = none :=
              OrdMap.lookup_eq_none_of_lt fun a ha => TransCmp.lt_trans hc (h.1 a ha)
            simp [OrdMap.lookup, hc, hl]
        | eq => exact absurd hc hne
        | gt => simp [OrdMap.lookup, hc]

theorem get?_apply (d : Document) (o : Operation) (k : String) :
    (d.apply o).get? k = after (o.changes.get? k) (d.get? k) :=
  get?_foldl_put o.changes.ascending d k

/-- A list changes a key to what its net change says. -/
theorem get?_applyAll (d : Document) (l : List Operation) (k : String) :
    (d.applyAll l).get? k = after ((net l).get? k) (d.get? k) := by
  induction l generalizing d with
  | nil => rfl
  | cons o l ih =>
      change ((d.apply o).applyAll l).get? k = _
      rw [ih, get?_apply, get?_net_cons, after_chain]

/-- A list of operations fits a document: the first change of every key expects the value that the
document has. -/
def Anchors (d : Document) (l : List Operation) : Prop :=
  ∀ k c, firstChange? l k = some c → c.prev = d.get? k

theorem anchors_iff_net {d : Document} {l : List Operation} :
    d.Anchors l ↔ ∀ k c, (net l).get? k = some c → c.prev = d.get? k := by
  refine forall_congr' fun k => ?_
  have hp := map_prev_net l k
  constructor
  · intro h c hc
    rw [hc, Option.map_some] at hp
    obtain ⟨b, hb, hbc⟩ := Option.map_eq_some_iff.1 hp.symm
    rw [← hbc]
    exact h b hb
  · intro h c hc
    rw [hc, Option.map_some] at hp
    obtain ⟨b, hb, hbc⟩ := Option.map_eq_some_iff.1 hp
    rw [← hbc]
    exact h b hb

instance (d : Document) (l : List Operation) : Decidable (d.Anchors l) :=
  decidable_of_iff (∀ e ∈ (net l).toList, e.2.prev = d.get? e.1) <| by
    rw [anchors_iff_net]
    exact ⟨fun h k c hc => h (k, c) (OrdMap.get?_eq_some_iff.1 hc),
      fun h e he => h e.1 e.2 (OrdMap.get?_eq_some_iff.2 he)⟩

structure Leads (d : Document) (l : List Operation) (e : Document) : Prop where
  anchors : d.Anchors l
  applyAll_eq : d.applyAll l = e

instance (d : Document) (l : List Operation) (e : Document) : Decidable (Leads d l e) :=
  decidable_of_iff (d.Anchors l ∧ d.applyAll l = e) ⟨fun h => ⟨h.1, h.2⟩, fun h => ⟨h.1, h.2⟩⟩

theorem leads_iff_net {d e : Document} {l : List Operation} :
    Leads d l e ↔ ∀ k, (∀ c, (net l).get? k = some c → c.prev = d.get? k) ∧
      after ((net l).get? k) (d.get? k) = e.get? k := by
  constructor
  · rintro ⟨ha, rfl⟩ k
    exact ⟨anchors_iff_net.1 ha k, (get?_applyAll d l k).symm⟩
  · intro h
    refine ⟨anchors_iff_net.2 fun k => (h k).1, ext fun k => ?_⟩
    rw [get?_applyAll, (h k).2]

namespace Leads

variable {d e f : Document} {a b l : List Operation}

theorem of_anchors (h : d.Anchors l) : Leads d l (d.applyAll l) := ⟨h, rfl⟩

theorem nil (d : Document) : Leads d [] d :=
  leads_iff_net.2 fun k => ⟨fun c hc => by simp at hc, by simp⟩

theorem edit (d : Document) (k : String) (v : Option String) :
    Leads d [d.edit k v] (d.apply (d.edit k v)) := by
  refine of_anchors (l := [d.edit k v]) (anchors_iff_net.2 fun j c hc => ?_)
  rw [get?_net_singleton, Document.edit, Operation.single, OrdMap.get?_single] at hc
  split at hc
  next hj =>
    cases hc
    rw [hj]
  next => cases hc

theorem append (ha : Leads d a e) (hb : Leads e b f) : Leads d (a ++ b) f := by
  rw [leads_iff_net] at ha hb ⊢
  intro k
  obtain ⟨ha₁, ha₂⟩ := ha k
  obtain ⟨hb₁, hb₂⟩ := hb k
  rw [get?_net_append, after_chain, ha₂]
  refine ⟨fun c hc => ?_, hb₂⟩
  cases hx : (net a).get? k with
  | none =>
      rw [hx, chain_none_left] at hc
      rw [hx, after_none] at ha₂
      rw [hb₁ c hc, ha₂]
  | some x =>
      rw [hx] at hc
      have hcx : c.prev = x.prev := by
        cases hy : (net b).get? k <;> rw [hy] at hc <;> cases hc <;> rfl
      rw [hcx, ha₁ x hx]

/-- The effect of a list is the difference between the documents at its ends. -/
theorem get?_effect (h : Leads d l e) (k : String) :
    (effect l).get? k = if d.get? k = e.get? k then none else some ⟨d.get? k, e.get? k⟩ := by
  obtain ⟨h₁, h₂⟩ := leads_iff_net.1 h k
  rw [Operation.get?_effect]
  cases hc : (net l).get? k with
  | none =>
      rw [hc, after_none] at h₂
      simp [h₂]
  | some c =>
      rw [hc, after_some] at h₂
      have hp : c.prev = d.get? k := h₁ c hc
      rw [← h₂, ← hp]
      by_cases hn : c.prev = c.next
      · simp [hn, Change.isNoop]
      · simp [hn, Change.isNoop]

/-- Whatever has this effect leads the same way. -/
theorem of_get?_net (h : ∀ k, (net l).get? k =
    if d.get? k = e.get? k then none else some ⟨d.get? k, e.get? k⟩) : Leads d l e := by
  refine leads_iff_net.2 fun k => ?_
  rw [h k]
  by_cases hk : d.get? k = e.get? k
  · simp [hk]
  · simp [hk]

theorem squash (h : Leads d l e) : Leads d (squash l) e :=
  of_get?_net fun k => by rw [get?_net_squash, h.get?_effect]

end Leads

end Document

end Confluence
