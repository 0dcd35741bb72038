import Confluence.History.Frontier
import Confluence.Proofs.History.Ancestry
import Mathlib.Data.List.Perm.Subperm

/-!
# Frontiers of walks

The entry that is taken from a frontier next is above all others, and stands under the id of its
commit if all entries do. Neither the order of visits nor what is added depends on timestamps. A
walk that visits no commit twice makes at most as many visits as there are stored commits, whatever
the history is like.
-/

namespace Confluence

open Std

variable {κ : Type} [CommitId κ] {β : Type}

namespace Commit

/-- The first commit is visited after the second one: its level is lower or, on one level, its id
is. -/
def Lower (c d : Commit κ) : Prop :=
  c.level < d.level ∨ c.level = d.level ∧ compare c.id d.id = .lt

theorem Lower.level_le {c d : Commit κ} (h : c.Lower d) : c.level ≤ d.level := by
  rcases h with h | h
  · exact Nat.le_of_lt h
  · exact Nat.le_of_eq h.1

theorem Lower.trans {c d e : Commit κ} (hcd : c.Lower d) (hde : d.Lower e) : c.Lower e := by
  rcases hcd with hcd | ⟨hcd, hid⟩
  · exact .inl (Nat.lt_of_lt_of_le hcd hde.level_le)
  · rcases hde with hde | ⟨hde, hid'⟩
    · exact .inl (hcd ▸ hde)
    · exact .inr ⟨hcd.trans hde, TransCmp.lt_trans hid hid'⟩

theorem Lower.irrefl (c : Commit κ) : ¬c.Lower c := by
  rintro (h | ⟨-, h⟩)
  · exact Nat.lt_irrefl _ h
  · simp [ReflCmp.compare_self] at h

def untimed (c : Commit κ) : Commit κ := { c with timestamp := none }

@[simp] theorem untimed_id (c : Commit κ) : c.untimed.id = c.id := rfl

@[simp] theorem untimed_parents (c : Commit κ) : c.untimed.parents = c.parents := rfl

@[simp] theorem untimed_level (c : Commit κ) : c.untimed.level = c.level := rfl

@[simp] theorem untimed_epoch (c : Commit κ) : c.untimed.epoch = c.epoch := rfl

theorem sameContent_iff_untimed {c d : Commit κ} :
    c.sameContent d = true ↔ c.untimed = d.untimed := sameContent_iff

end Commit

theorem History.Graded.eq_or_lower {h : History κ} (hg : h.Graded) {a d : κ} {ca cd : Commit κ}
    (ha : h.Ancestor a d) (hca : h.get? a = some ca) (hcd : h.get? d = some cd) :
    a = d ∨ ca.Lower cd := by
  obtain ⟨c, hc, hle⟩ := hg.ancestor_level ha hcd
  obtain rfl : ca = c := Option.some.inj (hca.symm.trans hc)
  exact hle.imp_right .inl

namespace Frontier

def Filed (f : Frontier κ β) : Prop := ∀ id e, f.get? id = some e → e.1.id = id

theorem foldl_higher {l : List (κ × Commit κ × β)}
    (hl : l.Pairwise fun a b => compare a.1 b.1 = .lt) (hf : ∀ e ∈ l, e.2.1.id = e.1)
    (b : Commit κ × β) (hb : ∀ e ∈ l, compare b.1.id e.1 = .lt) :
    ∃ t, l.foldl higher (some b) = some t ∧ (t = b ∨ ∃ e ∈ l, t = e.2) ∧
      (b = t ∨ b.1.Lower t.1) ∧ ∀ e ∈ l, e.2 = t ∨ e.2.1.Lower t.1 := by
  induction l generalizing b with
  | nil => exact ⟨b, rfl, .inl rfl, .inl rfl, by simp⟩
  | cons e l ih =>
      rw [List.pairwise_cons] at hl
      have hl' : ∀ x ∈ l, x.2.1.id = x.1 := fun x hx => hf x (List.mem_cons_of_mem e hx)
      rw [List.foldl_cons]
      by_cases hle : b.1.level ≤ e.2.1.level
      · have hbe : b.1.Lower e.2.1 := by
          rcases Nat.lt_or_eq_of_le hle with h | h
          · exact .inl h
          · refine .inr ⟨h, ?_⟩
            rw [hf e List.mem_cons_self]
            exact hb e List.mem_cons_self
        have hid : ∀ x ∈ l, compare e.2.1.id x.1 = .lt := by
          rw [hf e List.mem_cons_self]
          exact hl.1
        obtain ⟨t, ht, hmem, het, hall⟩ := ih hl.2 hl' e.2 hid
        refine ⟨t, by rw [higher, if_pos hle, ht], .inr ?_, .inr ?_, ?_⟩
        · rcases hmem with rfl | ⟨x, hx, rfl⟩
          · exact ⟨e, List.mem_cons_self, rfl⟩
          · exact ⟨x, List.mem_cons_of_mem e hx, rfl⟩
        · rcases het with rfl | het
          · exact hbe
          · exact hbe.trans het
        · intro x hx
          rcases List.mem_cons.1 hx with rfl | hx
          · exact het
          · exact hall x hx
      · have heb : e.2.1.Lower b.1 := .inl (Nat.lt_of_not_le hle)
        obtain ⟨t, ht, hmem, hbt, hall⟩ :=
          ih hl.2 hl' b fun x hx => hb x (List.mem_cons_of_mem e hx)
        refine ⟨t, by rw [higher, if_neg hle, ht], ?_, hbt, ?_⟩
        · rcases hmem with rfl | ⟨x, hx, rfl⟩
          · exact .inl rfl
          · exact .inr ⟨x, List.mem_cons_of_mem e hx, rfl⟩
        · intro x hx
          rcases List.mem_cons.1 hx with rfl | hx
          · rcases hbt with rfl | hbt
            · exact .inr heb
            · exact .inr (heb.trans hbt)
          · exact hall x hx

theorem pop?_eq_none {f : Frontier κ β} (h : f.pop? = none) (id : κ) : f.get? id = none := by
  obtain ⟨_ | ⟨e, l⟩, hl⟩ := f
  · rfl
  · have : ∀ (l : List (κ × Commit κ × β)) (b : Commit κ × β),
        l.foldl higher (some b) ≠ none := by
      intro l
      induction l with
      | nil => simp
      | cons a l ih =>
          intro b
          rw [List.foldl_cons, higher]
          split
          · exact ih _
          · exact ih _
    simp only [pop?, top?, List.foldl_cons, Option.map_eq_none_iff, higher] at h
    exact absurd h (this l e.2)

theorem pop?_eq_some {f rest : Frontier κ β} {e : Commit κ × β} (hf : f.Filed)
    (h : f.pop? = some (e, rest)) :
    f.get? e.1.id = some e ∧ rest = f.erase e.1.id ∧
      ∀ id x, f.get? id = some x → x = e ∨ x.1.Lower e.1 := by
  obtain ⟨t, ht, hte⟩ := Option.map_eq_some_iff.1 h
  cases hte
  have hmem (x : κ × Commit κ × β) (hx : x ∈ f.toList) : x.2.1.id = x.1 :=
    hf x.1 x.2 (OrdMap.get?_eq_some_iff.2 hx)
  obtain ⟨_ | ⟨b, l⟩, hl⟩ := f
  · cases ht
  · have hp := List.pairwise_cons.1 hl
    obtain ⟨t', ht', hin, hb, hall⟩ := foldl_higher hp.2
      (fun x hx => hmem x (List.mem_cons_of_mem b hx)) b.2 (by
        rw [hmem b List.mem_cons_self]
        exact hp.1)
    simp only [top?, List.foldl_cons, higher] at ht
    rw [ht'] at ht
    cases ht
    refine ⟨?_, rfl, fun id x hx => ?_⟩
    · rw [OrdMap.get?_eq_some_iff]
      rcases hin with rfl | ⟨x, hx, rfl⟩
      · rw [hmem b List.mem_cons_self]
        exact List.mem_cons_self
      · rw [hmem x (List.mem_cons_of_mem b hx)]
        exact List.mem_cons_of_mem b hx
    · rcases List.mem_cons.1 (OrdMap.get?_eq_some_iff.1 hx) with rfl | hx
      · exact hb
      · exact hall _ hx

/-- An added entry is found under the id of its commit; other ids keep theirs. -/
theorem get?_add (f : Frontier κ β) (entries : List (Commit κ × β)) (id : κ) :
    (∃ e ∈ entries, e.1.id = id ∧ (f.add entries).get? id = some e) ∨
      (∀ e ∈ entries, e.1.id ≠ id) ∧ (f.add entries).get? id = f.get? id := by
  induction entries generalizing f with
  | nil => exact .inr ⟨by simp, rfl⟩
  | cons e entries ih =>
      change (∃ x ∈ e :: entries, x.1.id = id ∧ (add (f.insert e.1.id e) entries).get? id = _) ∨
        _ ∧ (add (f.insert e.1.id e) entries).get? id = _
      rcases ih (f.insert e.1.id e) with ⟨x, hx, hid, hget⟩ | ⟨hne, hget⟩
      · exact .inl ⟨x, List.mem_cons_of_mem e hx, hid, hget⟩
      · rw [OrdMap.get?_insert] at hget
        by_cases hid : id = e.1.id
        · rw [if_pos hid] at hget
          exact .inl ⟨e, List.mem_cons_self, hid.symm, hget⟩
        · rw [if_neg hid] at hget
          refine .inr ⟨fun x hx => ?_, hget⟩
          rcases List.mem_cons.1 hx with rfl | hx
          · exact fun h => hid h.symm
          · exact hne x hx

theorem get?_add_loaded {h : History κ} (hf : h.Filed) {ids : List κ} {cs : List (Commit κ)}
    (hcs : ids.map h.get? = cs.map some) (b : Commit κ → β) (id : κ) (e : Commit κ × β) :
    (add (∅ : Frontier κ β) (cs.map fun c => (c, b c))).get? id = some e ↔
      id ∈ ids ∧ ∃ c, h.get? id = some c ∧ e = (c, b c) := by
  have hmem := History.mem_of_map_get? hcs
  rcases get?_add (∅ : Frontier κ β) (cs.map fun c => (c, b c)) id with
    ⟨x, hx, hid, hget⟩ | ⟨hne, hget⟩
  · obtain ⟨c, hc, rfl⟩ := List.mem_map.1 hx
    obtain ⟨i, hi, hic⟩ := (hmem c).1 hc
    obtain rfl : i = id := (hf _ _ hic).symm.trans hid
    rw [hget, Option.some.injEq]
    constructor
    · rintro rfl
      exact ⟨hi, c, hic, rfl⟩
    · rintro ⟨-, d, hd, rfl⟩
      rw [hic] at hd
      cases hd
      rfl
  · rw [hget, OrdMap.get?_empty]
    constructor
    · intro hn
      cases hn
    rintro ⟨hid, c, hc, -⟩
    have hin : c ∈ cs := (hmem c).2 ⟨id, hid, hc⟩
    exact absurd (hf _ _ hc) (hne (c, b c) (List.mem_map.2 ⟨c, hin, rfl⟩))

/-! ## Frontiers with other entries -/

/-- Entries may be replaced by others without a change to the order of visits: the commits keep
their ids and levels. -/
def InPlace {γ : Type} (g : Commit κ × β → Commit κ × γ) : Prop :=
  ∀ e, (g e).1.id = e.1.id ∧ (g e).1.level = e.1.level

section

variable {γ : Type} {g : Commit κ × β → Commit κ × γ}

theorem map_add (hg : InPlace g) (f : Frontier κ β) (entries : List (Commit κ × β)) :
    (f.add entries).map g = add (f.map g) (entries.map g) := by
  induction entries generalizing f with
  | nil => rfl
  | cons e entries ih =>
      change (add (f.insert e.1.id e) entries).map g = _
      rw [ih, OrdMap.map_insert, List.map_cons, ← (hg e).1]
      rfl

theorem top?_map (hg : InPlace g) (f : Frontier κ β) : top? (f.map g) = f.top?.map g := by
  have hhigher (best : Option (Commit κ × β)) (e : κ × Commit κ × β) :
      higher (best.map g) (e.1, g e.2) = (higher best e).map g := by
    cases best with
    | none => rfl
    | some b =>
        by_cases hle : b.1.level ≤ e.2.1.level
        · simp [higher, (hg b).2, (hg e.2).2, hle]
        · simp [higher, (hg b).2, (hg e.2).2, hle]
  have hfold (l : List (κ × Commit κ × β)) (best : Option (Commit κ × β)) :
      (l.map fun e => (e.1, g e.2)).foldl higher (best.map g) = (l.foldl higher best).map g := by
    induction l generalizing best with
    | nil => rfl
    | cons e l ih => rw [List.map_cons, List.foldl_cons, List.foldl_cons, hhigher, ih]
  exact hfold f.toList none

theorem pop?_map (hg : InPlace g) (f : Frontier κ β) :
    pop? (f.map g) = f.pop?.map fun e => (g e.1, e.2.map g) := by
  unfold pop?
  rw [top?_map hg, Option.map_map, Option.map_map]
  congr 1
  funext e
  simp only [Function.comp_apply, (hg e).1, OrdMap.map_erase]

end

/-! ## Timestamps -/

def untimedEntry (e : Commit κ × β) : Commit κ × β := (e.1.untimed, e.2)

def untimed (f : Frontier κ β) : Frontier κ β := f.map untimedEntry

theorem inPlace_untimedEntry : InPlace (untimedEntry : Commit κ × β → Commit κ × β) :=
  fun _ => ⟨rfl, rfl⟩

theorem get?_untimed (f : Frontier κ β) (id : κ) :
    f.untimed.get? id = (f.get? id).map untimedEntry := OrdMap.get?_map ..

theorem untimed_insert (f : Frontier κ β) (id : κ) (e : Commit κ × β) :
    untimed (f.insert id e) = f.untimed.insert id (untimedEntry e) := OrdMap.map_insert ..

theorem untimed_add (f : Frontier κ β) (entries : List (Commit κ × β)) :
    (f.add entries).untimed = f.untimed.add (entries.map untimedEntry) :=
  map_add inPlace_untimedEntry f entries

/-- What is visited next does not depend on timestamps. -/
theorem pop?_untimed (f : Frontier κ β) :
    f.untimed.pop? = f.pop?.map fun e => (untimedEntry e.1, e.2.untimed) :=
  pop?_map inPlace_untimedEntry f

end Frontier

/-! ## Bounds -/

/-- Where any walk stands: no visited commit is on the frontier or visited twice, and all commits
are stored. -/
structure Course (h : History κ) (visited : List κ) (f : Frontier κ β) : Prop where
  entry : ∀ {id e}, f.get? id = some e → h.get? id = some e.1
  unvisited : ∀ {id e}, f.get? id = some e → id ∉ visited
  nodup : visited.Nodup
  stored : ∀ {v}, v ∈ visited → ∃ c, h.get? v = some c

namespace Course

variable {h : History κ} {visited : List κ} {f rest : Frontier κ β} {e : Commit κ × β}

/-- While the frontier holds a commit, not all that is stored has been visited. -/
theorem length_lt (hc : Course h visited f) {id : κ} (he : f.get? id = some e) :
    visited.length < h.size := by
  have hn : (id :: visited).Nodup := List.nodup_cons.2 ⟨hc.unvisited he, hc.nodup⟩
  rw [← OrdMap.length_keys]
  refine (hn.subperm fun v hv => OrdMap.mem_keys.2 ?_).length_le
  rcases List.mem_cons.1 hv with rfl | hv
  · exact ⟨e.1, hc.entry he⟩
  · exact hc.stored hv

theorem start (hf : h.Filed) {ids : List κ} {cs : List (Commit κ)}
    (hcs : ids.map h.get? = cs.map some) (b : Commit κ → β) :
    Course h [] (Frontier.add ∅ (cs.map fun c => (c, b c))) := by
  refine ⟨fun {id e} he => ?_, fun _ => List.not_mem_nil, .nil, fun hv => by cases hv⟩
  obtain ⟨-, c, hc, rfl⟩ := (Frontier.get?_add_loaded hf hcs b id e).1 he
  exact hc

theorem pop (hc : Course h visited f) (hf : h.Filed) (hpop : f.pop? = some (e, rest)) :
    f.get? e.1.id = some e ∧ (∀ id y, rest.get? id = some y → f.get? id = some y) ∧
      Course h (e.1.id :: visited) rest := by
  obtain ⟨he, rfl, -⟩ := Frontier.pop?_eq_some (fun _ _ he => hf _ _ (hc.entry he)) hpop
  have hrest {id : κ} {y : Commit κ × β} (hy : OrdMap.get? (f.erase e.1.id) id = some y) :
      id ≠ e.1.id ∧ f.get? id = some y := by
    rw [OrdMap.get?_erase] at hy
    split at hy
    next => cases hy
    next hne => exact ⟨hne, hy⟩
  refine ⟨he, fun _ _ hy => (hrest hy).2, fun hy => hc.entry (hrest hy).2, fun hy hv => ?_,
    List.nodup_cons.2 ⟨hc.unvisited he, hc.nodup⟩, fun hv => ?_⟩
  · rcases List.mem_cons.1 hv with heq | hv
    · exact (hrest hy).1 heq
    · exact hc.unvisited (hrest hy).2 hv
  · rcases List.mem_cons.1 hv with rfl | hv
    · exact ⟨e.1, hc.entry he⟩
    · exact hc.stored hv

theorem insert (hc : Course h visited f) {id : κ} {c : Commit κ} (hget : h.get? id = some c)
    (hnew : id ∉ visited) (b : β) : Course h visited (f.insert id (c, b)) := by
  refine ⟨fun {i y} hy => ?_, fun {i y} hy => ?_, hc.nodup, hc.stored⟩
  · rw [OrdMap.get?_insert] at hy
    split at hy
    next hi =>
      cases hy
      rw [hi, hget]
    next => exact hc.entry hy
  · rw [OrdMap.get?_insert] at hy
    split at hy
    next hi =>
      rw [hi]
      exact hnew
    next => exact hc.unvisited hy

end Course

end Confluence
