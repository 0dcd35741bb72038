/-!
# Sets with ascending members

`OrdSet α` is a list of strictly ascending members, so equal sets have equal representations
(`OrdSet.ext`). Each operation is pinned by its members.
-/

namespace Confluence

open Std

/-- A finite set, held as its members in strictly ascending order. -/
structure OrdSet (α : Type) [Ord α] where
  toList : List α
  ascending : toList.Pairwise fun a b => compare a b = .lt
deriving DecidableEq

namespace OrdSet

variable {α : Type} [Ord α]

/-- Whether a list with ascending members holds a value; the search stops at the first greater
member. -/
def search (a : α) : List α → Bool
  | [] => false
  | b :: l =>
    match compare a b with
    | .lt => false
    | .eq => true
    | .gt => search a l

/-- Puts a value in front of the first greater member, unless it is there already. -/
def place (a : α) : List α → List α
  | [] => [a]
  | b :: l =>
    match compare a b with
    | .lt => a :: b :: l
    | .eq => b :: l
    | .gt => b :: place a l

theorem mem_place {a c : α} {l : List α} (h : c ∈ place a l) : c = a ∨ c ∈ l := by
  induction l with
  | nil => simpa [place] using h
  | cons b l ih =>
    unfold place at h
    split at h <;> grind

theorem pairwise_place [TransOrd α] (a : α) {l : List α}
    (h : l.Pairwise fun a b => compare a b = .lt) :
    (place a l).Pairwise fun a b => compare a b = .lt := by
  induction l with
  | nil => simp [place]
  | cons b l ih =>
    rw [List.pairwise_cons] at h
    unfold place
    split
    next hlt =>
      refine List.pairwise_cons.2 ⟨fun c hc => ?_, List.pairwise_cons.2 h⟩
      rcases List.mem_cons.1 hc with rfl | hc
      · exact hlt
      · exact TransCmp.lt_trans hlt (h.1 c hc)
    next heq => exact List.pairwise_cons.2 h
    next hgt =>
      refine List.pairwise_cons.2 ⟨fun c hc => ?_, ih h.2⟩
      rcases mem_place hc with rfl | hc
      · exact OrientedCmp.lt_of_gt hgt
      · exact h.1 c hc

/-! ## Operations -/

def empty : OrdSet α := ⟨[], .nil⟩

instance : EmptyCollection (OrdSet α) := ⟨empty⟩

instance : Inhabited (OrdSet α) := ⟨empty⟩

def contains (s : OrdSet α) (a : α) : Bool := search a s.toList

instance : Membership α (OrdSet α) := ⟨fun s a => a ∈ s.toList⟩

def insert [TransOrd α] (s : OrdSet α) (a : α) : OrdSet α :=
  ⟨place a s.toList, pairwise_place a s.ascending⟩

def filter (p : α → Bool) (s : OrdSet α) : OrdSet α :=
  ⟨s.toList.filter p, s.ascending.filter p⟩

def erase (s : OrdSet α) (a : α) : OrdSet α :=
  s.filter fun b => compare a b != .eq

def single (a : α) : OrdSet α := ⟨[a], List.pairwise_singleton ..⟩

def insertMany [TransOrd α] (s : OrdSet α) (l : List α) : OrdSet α :=
  l.foldl insert s

def ofList [TransOrd α] (l : List α) : OrdSet α := empty.insertMany l

def union [TransOrd α] (s t : OrdSet α) : OrdSet α := s.insertMany t.toList

/-- The members of the first set that are not in the second. -/
def diff (s t : OrdSet α) : OrdSet α := s.filter fun a => !t.contains a

def size (s : OrdSet α) : Nat := s.toList.length

def isEmpty (s : OrdSet α) : Bool := s.toList.isEmpty

def first? (s : OrdSet α) : Option α := s.toList.head?

/-! ## Laws -/

theorem mem_def {s : OrdSet α} {a : α} : a ∈ s ↔ a ∈ s.toList := Iff.rfl

theorem contains_iff_mem [TransOrd α] [LawfulEqOrd α] {s : OrdSet α} {a : α} :
    s.contains a = true ↔ a ∈ s := by
  obtain ⟨l, hl⟩ := s
  change search a l = true ↔ a ∈ l
  induction l with
  | nil => simp [search]
  | cons b l ih =>
    rw [List.pairwise_cons] at hl
    unfold search
    split
    next hlt =>
      simp only [Bool.false_eq_true, false_iff, List.mem_cons, not_or]
      refine ⟨fun h => ?_, fun h => ?_⟩
      · simp [h, ReflCmp.compare_self] at hlt
      · have := TransCmp.lt_trans hlt (hl.1 _ h)
        simp [ReflCmp.compare_self] at this
    next heq => simp [LawfulEqCmp.eq_of_compare heq]
    next hgt =>
      rw [ih hl.2, List.mem_cons]
      refine ⟨.inr, fun h => h.resolve_left fun h => ?_⟩
      simp [h, ReflCmp.compare_self] at hgt

theorem mem_insert [TransOrd α] [LawfulEqOrd α] {s : OrdSet α} {a b : α} :
    b ∈ s.insert a ↔ b = a ∨ b ∈ s := by
  obtain ⟨l, hl⟩ := s
  change b ∈ place a l ↔ b = a ∨ b ∈ l
  refine ⟨mem_place, fun h => ?_⟩
  clear hl
  induction l with
  | nil => simpa [place] using h
  | cons c l ih =>
    unfold place
    split
    next => simpa using h
    next heq =>
      have hc : a = c := LawfulEqCmp.eq_of_compare heq
      subst hc
      simpa using h
    next => grind

theorem mem_filter {s : OrdSet α} {p : α → Bool} {a : α} :
    a ∈ s.filter p ↔ a ∈ s ∧ p a = true :=
  List.mem_filter

theorem mem_erase [TransOrd α] [LawfulEqOrd α] {s : OrdSet α} {a b : α} :
    b ∈ s.erase a ↔ b ∈ s ∧ b ≠ a := by
  rw [erase, mem_filter, bne_iff_ne]
  refine and_congr_right fun _ => not_congr ⟨fun h => (LawfulEqCmp.eq_of_compare h).symm, ?_⟩
  rintro rfl
  exact ReflCmp.compare_self

theorem mem_insertMany [TransOrd α] [LawfulEqOrd α] {s : OrdSet α} {l : List α} {a : α} :
    a ∈ s.insertMany l ↔ a ∈ s ∨ a ∈ l := by
  induction l generalizing s with
  | nil => simp [insertMany]
  | cons b l ih =>
    change a ∈ (s.insert b).insertMany l ↔ _
    rw [ih, mem_insert, List.mem_cons]
    grind

theorem mem_ofList [TransOrd α] [LawfulEqOrd α] {l : List α} {a : α} :
    a ∈ ofList l ↔ a ∈ l := by
  rw [ofList, mem_insertMany]
  exact or_iff_right (List.not_mem_nil)

/-- Two sets with the same members are the same set. -/
theorem ext [TransOrd α] [LawfulEqOrd α] {s t : OrdSet α} (h : ∀ a, a ∈ s ↔ a ∈ t) : s = t := by
  have ne_of_lt : ∀ {a b : α}, compare a b = .lt → a ≠ b := by
    rintro a _ hab rfl
    simp [ReflCmp.compare_self] at hab
  have hp : s.toList.Perm t.toList :=
    (List.perm_ext_iff_of_nodup (s.ascending.imp ne_of_lt) (t.ascending.imp ne_of_lt)).2 h
  have hl : s.toList = t.toList :=
    hp.eq_of_pairwise
      (fun a b _ _ hab hba => by
        have := TransCmp.lt_trans hab hba
        simp [ReflCmp.compare_self] at this)
      s.ascending t.ascending
  cases s
  cases t
  cases hl
  rfl

theorem not_mem_empty (a : α) : a ∉ (∅ : OrdSet α) := List.not_mem_nil

theorem mem_single {a b : α} : b ∈ single a ↔ b = a := List.mem_singleton

theorem mem_union [TransOrd α] [LawfulEqOrd α] {s t : OrdSet α} {a : α} :
    a ∈ s.union t ↔ a ∈ s ∨ a ∈ t := mem_insertMany

theorem mem_diff [TransOrd α] [LawfulEqOrd α] {s t : OrdSet α} {a : α} :
    a ∈ s.diff t ↔ a ∈ s ∧ a ∉ t := by
  rw [diff, mem_filter, Bool.not_eq_true', ← Bool.not_eq_true, contains_iff_mem]

theorem nodup_toList [TransOrd α] (s : OrdSet α) : s.toList.Nodup := by
  refine s.ascending.imp fun {a b} hab hne => ?_
  simp [hne, ReflCmp.compare_self] at hab

theorem exists_mem_of_two_le {s : OrdSet α} (h : 2 ≤ s.size) : ∃ a, a ∈ s := by
  obtain ⟨_ | ⟨a, l⟩, hl⟩ := s
  · simp [size] at h
  · exact ⟨a, List.mem_cons_self⟩

theorem single_of_size_le_one {s : OrdSet α} {a : α} (h : s.size ≤ 1) (ha : a ∈ s) :
    s = single a := by
  obtain ⟨_ | ⟨b, _ | ⟨c, l⟩⟩, hl⟩ := s
  · cases ha
  · cases List.mem_singleton.1 ha
    rfl
  · simp [size] at h

end OrdSet

end Confluence
