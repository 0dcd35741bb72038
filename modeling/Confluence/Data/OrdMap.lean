/-!
# Maps with ascending keys

`OrdMap α β` is a list of pairs whose keys ascend strictly. Equal contents therefore have equal
representations: `OrdMap.ext` says that two maps agreeing on every key are the same map. Each
operation is pinned by what it does to `get?`.
-/

namespace Confluence

open Std

/-- A finite map, held as its entries in strictly ascending key order. -/
structure OrdMap (α : Type) (β : Type) [Ord α] where
  toList : List (α × β)
  ascending : toList.Pairwise fun a b => compare a.1 b.1 = .lt
deriving DecidableEq

namespace OrdMap

variable {α β γ : Type} [Ord α]

/-- The value of a key in a list of entries with ascending keys; the search stops at the first
greater key. -/
def lookup (k : α) : List (α × β) → Option β
  | [] => none
  | e :: l =>
    match compare k e.1 with
    | .lt => none
    | .eq => some e.2
    | .gt => lookup k l

/-- Puts a pair in front of the first greater key, in place of an equal one. -/
def place (k : α) (v : β) : List (α × β) → List (α × β)
  | [] => [(k, v)]
  | e :: l =>
    match compare k e.1 with
    | .lt => (k, v) :: e :: l
    | .eq => (k, v) :: l
    | .gt => e :: place k v l

def remove (k : α) : List (α × β) → List (α × β)
  | [] => []
  | e :: l =>
    match compare k e.1 with
    | .lt => e :: l
    | .eq => l
    | .gt => e :: remove k l

theorem mem_place {k : α} {v : β} {l : List (α × β)} {e : α × β} (h : e ∈ place k v l) :
    e = (k, v) ∨ e ∈ l := by
  induction l with
  | nil => simpa [place] using h
  | cons a l ih =>
    unfold place at h
    split at h <;> grind

theorem remove_sublist (k : α) (l : List (α × β)) : (remove k l).Sublist l := by
  induction l with
  | nil => exact .slnil
  | cons a l ih =>
    unfold remove
    split
    · exact .refl _
    · exact List.sublist_cons_self a l
    · exact ih.cons_cons a

theorem pairwise_place [TransOrd α] (k : α) (v : β) {l : List (α × β)}
    (h : l.Pairwise fun a b => compare a.1 b.1 = .lt) :
    (place k v l).Pairwise fun a b => compare a.1 b.1 = .lt := by
  induction l with
  | nil => simp [place]
  | cons a l ih =>
    rw [List.pairwise_cons] at h
    unfold place
    split
    next hlt =>
      refine List.pairwise_cons.2 ⟨fun b hb => ?_, List.pairwise_cons.2 h⟩
      rcases List.mem_cons.1 hb with rfl | hb
      · exact hlt
      · exact TransCmp.lt_trans hlt (h.1 b hb)
    next heq =>
      exact List.pairwise_cons.2 ⟨fun b hb => TransCmp.lt_of_eq_of_lt heq (h.1 b hb), h.2⟩
    next hgt =>
      refine List.pairwise_cons.2 ⟨fun b hb => ?_, ih h.2⟩
      rcases mem_place hb with rfl | hb
      · exact OrientedCmp.lt_of_gt hgt
      · exact h.1 b hb

/-! ## Operations -/

def empty : OrdMap α β := ⟨[], .nil⟩

instance : EmptyCollection (OrdMap α β) := ⟨empty⟩

instance : Inhabited (OrdMap α β) := ⟨empty⟩

def get? (m : OrdMap α β) (k : α) : Option β := lookup k m.toList

def contains (m : OrdMap α β) (k : α) : Bool := (m.get? k).isSome

/-- Gives a key a value, replacing the one it had. -/
def insert [TransOrd α] (m : OrdMap α β) (k : α) (v : β) : OrdMap α β :=
  ⟨place k v m.toList, pairwise_place k v m.ascending⟩

/-- Gives a key a value unless it has one. -/
def insertIfNew [TransOrd α] (m : OrdMap α β) (k : α) (v : β) : OrdMap α β :=
  if m.contains k then m else m.insert k v

def erase (m : OrdMap α β) (k : α) : OrdMap α β :=
  ⟨remove k m.toList, m.ascending.sublist (remove_sublist k _)⟩

def map (f : β → γ) (m : OrdMap α β) : OrdMap α γ :=
  ⟨m.toList.map fun e => (e.1, f e.2), by
    simpa [List.pairwise_map] using m.ascending⟩

def filter (p : α → β → Bool) (m : OrdMap α β) : OrdMap α β :=
  ⟨m.toList.filter fun e => p e.1 e.2, m.ascending.filter _⟩

/-- Applies a partial function to every entry and keeps the results. -/
def filterMap (f : α → β → Option γ) (m : OrdMap α β) : OrdMap α γ :=
  ⟨m.toList.filterMap fun e => (f e.1 e.2).map (e.1, ·), by
    refine m.ascending.filterMap _ fun a b h c hc d hd => ?_
    obtain ⟨_, _, rfl⟩ := Option.map_eq_some_iff.1 hc
    obtain ⟨_, _, rfl⟩ := Option.map_eq_some_iff.1 hd
    exact h⟩

def single (k : α) (v : β) : OrdMap α β := ⟨[(k, v)], List.pairwise_singleton ..⟩

/-- Inserts pairs from left to right, so the last value of a key wins. -/
def insertMany [TransOrd α] (m : OrdMap α β) (l : List (α × β)) : OrdMap α β :=
  l.foldl (fun m e => m.insert e.1 e.2) m

/-- The map of a list of pairs; the last value of a key wins. -/
def ofList [TransOrd α] (l : List (α × β)) : OrdMap α β := empty.insertMany l

def keys (m : OrdMap α β) : List α := m.toList.map (·.1)

def values (m : OrdMap α β) : List β := m.toList.map (·.2)

def size (m : OrdMap α β) : Nat := m.toList.length

def isEmpty (m : OrdMap α β) : Bool := m.toList.isEmpty

/-! ## Laws -/

theorem lookup_eq_none_of_lt [TransOrd α] {k : α} {l : List (α × β)}
    (h : ∀ e ∈ l, compare k e.1 = .lt) : lookup k l = none := by
  cases l with
  | nil => rfl
  | cons e l => simp [lookup, h e (List.mem_cons_self ..)]

theorem lookup_eq_some_iff [TransOrd α] [LawfulEqOrd α] {k : α} {v : β} {l : List (α × β)}
    (hl : l.Pairwise fun a b => compare a.1 b.1 = .lt) : lookup k l = some v ↔ (k, v) ∈ l := by
  induction l with
  | nil => simp [lookup]
  | cons e l ih =>
    rw [List.pairwise_cons] at hl
    unfold lookup
    split
    next hlt =>
      simp only [reduceCtorEq, false_iff, List.mem_cons, not_or]
      refine ⟨fun h => ?_, fun h => ?_⟩
      · rw [← h] at hlt
        simp [ReflCmp.compare_self] at hlt
      · have := TransCmp.lt_trans hlt (hl.1 _ h)
        simp [ReflCmp.compare_self] at this
    next heq =>
      have he : k = e.1 := LawfulEqCmp.eq_of_compare heq
      constructor
      · rintro ⟨⟩
        exact List.mem_cons.2 (.inl (Prod.ext he rfl))
      · intro h
        rcases List.mem_cons.1 h with h | h
        · rw [← h]
        · have := hl.1 _ h
          simp [he, ReflCmp.compare_self] at this
    next hgt =>
      rw [ih hl.2, List.mem_cons]
      refine ⟨.inr, fun h => h.resolve_left fun h => ?_⟩
      simp [← h, ReflCmp.compare_self] at hgt

theorem get?_eq_some_iff [TransOrd α] [LawfulEqOrd α] {m : OrdMap α β} {k : α} {v : β} :
    m.get? k = some v ↔ (k, v) ∈ m.toList :=
  lookup_eq_some_iff m.ascending

@[simp] theorem get?_empty (k : α) : (∅ : OrdMap α β).get? k = none := rfl

theorem get?_insert_self [TransOrd α] [LawfulEqOrd α] (m : OrdMap α β) (k : α) (v : β) :
    (m.insert k v).get? k = some v := by
  obtain ⟨l, hl⟩ := m
  change lookup k (place k v l) = some v
  clear hl
  induction l with
  | nil => simp [place, lookup, ReflCmp.compare_self]
  | cons e l ih =>
    unfold place
    split
    next h => simp [lookup, ReflCmp.compare_self]
    next h => simp [lookup, ReflCmp.compare_self]
    next h => simp [lookup, h, ih]

theorem get?_insert_of_ne [TransOrd α] [LawfulEqOrd α] (m : OrdMap α β) {k j : α} (v : β)
    (h : j ≠ k) : (m.insert k v).get? j = m.get? j := by
  obtain ⟨l, hl⟩ := m
  change lookup j (place k v l) = lookup j l
  have hjk : compare j k ≠ .eq := fun e => h (LawfulEqCmp.eq_of_compare e)
  induction l with
  | nil =>
    simp only [place, lookup]
    split <;> simp_all
  | cons e l ih =>
    have hl' := List.pairwise_cons.1 hl
    unfold place
    split
    next hlt =>
      rw [lookup]
      split
      next hj =>
        refine (lookup_eq_none_of_lt fun a ha => ?_).symm
        have hje := TransCmp.lt_trans hj hlt
        rcases List.mem_cons.1 ha with rfl | ha
        · exact hje
        · exact TransCmp.lt_trans hje (hl'.1 a ha)
      next hj => exact absurd hj hjk
      next hj => rfl
    next heq =>
      have he : k = e.1 := LawfulEqCmp.eq_of_compare heq
      simp only [lookup, ← he]
      split <;> simp_all
    next hgt =>
      simp only [lookup]
      rw [ih hl'.2]

theorem get?_erase_self [TransOrd α] (m : OrdMap α β) (k : α) : (m.erase k).get? k = none := by
  obtain ⟨l, hl⟩ := m
  change lookup k (remove k l) = none
  induction l with
  | nil => rfl
  | cons e l ih =>
    have hl' := List.pairwise_cons.1 hl
    unfold remove
    split
    next h => simp [lookup, h]
    next h => exact lookup_eq_none_of_lt fun a ha => TransCmp.lt_of_eq_of_lt h (hl'.1 a ha)
    next h => simp [lookup, h, ih hl'.2]

theorem get?_erase_of_ne [TransOrd α] [LawfulEqOrd α] (m : OrdMap α β) {k j : α} (h : j ≠ k) :
    (m.erase k).get? j = m.get? j := by
  obtain ⟨l, hl⟩ := m
  change lookup j (remove k l) = lookup j l
  have hjk : compare j k ≠ .eq := fun e => h (LawfulEqCmp.eq_of_compare e)
  induction l with
  | nil => rfl
  | cons e l ih =>
    have hl' := List.pairwise_cons.1 hl
    unfold remove
    split
    next h => rfl
    next heq =>
      have he : k = e.1 := LawfulEqCmp.eq_of_compare heq
      rw [lookup, ← he]
      split
      next hj =>
        exact lookup_eq_none_of_lt fun a ha => TransCmp.lt_trans hj (he ▸ hl'.1 a ha)
      next hj => exact absurd hj hjk
      next hj => rfl
    next hgt =>
      simp only [lookup]
      rw [ih hl'.2]

theorem get?_map (f : β → γ) (m : OrdMap α β) (k : α) : (m.map f).get? k = (m.get? k).map f := by
  obtain ⟨l, hl⟩ := m
  change lookup k (l.map _) = (lookup k l).map f
  clear hl
  induction l with
  | nil => rfl
  | cons e l ih =>
    simp only [List.map_cons, lookup]
    split <;> simp_all

theorem get?_filterMap [TransOrd α] [LawfulEqOrd α] (f : α → β → Option γ) (m : OrdMap α β)
    (k : α) : (m.filterMap f).get? k = (m.get? k).bind (f k) := by
  refine Option.ext fun v => ?_
  rw [get?_eq_some_iff, Option.bind_eq_some_iff]
  simp only [filterMap, List.mem_filterMap, Option.map_eq_some_iff, Prod.mk.injEq]
  constructor
  · rintro ⟨e, he, c, hc, rfl, rfl⟩
    exact ⟨e.2, get?_eq_some_iff.2 he, hc⟩
  · rintro ⟨b, hb, hv⟩
    exact ⟨(k, b), get?_eq_some_iff.1 hb, v, hv, rfl, rfl⟩

theorem eq_of_toList_eq {m n : OrdMap α β} (h : m.toList = n.toList) : m = n := by
  cases m
  cases n
  cases h
  rfl

/-- Two maps with the same value, or none, under every key are the same map. -/
theorem ext [TransOrd α] [LawfulEqOrd α] {m n : OrdMap α β} (h : ∀ k, m.get? k = n.get? k) :
    m = n := by
  have key : ∀ {a b : α × β}, (compare a.1 b.1 = .lt) → (compare b.1 a.1 = .lt) → False := by
    intro a b hab hba
    have := TransCmp.lt_trans hab hba
    simp [ReflCmp.compare_self] at this
  have hp : m.toList.Perm n.toList := by
    refine (List.perm_ext_iff_of_nodup ?_ ?_).2 fun e => ?_
    · exact m.ascending.imp fun {a b} hab hne => by
        subst hne
        simp [ReflCmp.compare_self] at hab
    · exact n.ascending.imp fun {a b} hab hne => by
        subst hne
        simp [ReflCmp.compare_self] at hab
    · rw [← Prod.eta e, ← get?_eq_some_iff, ← get?_eq_some_iff, h]
  exact eq_of_toList_eq
    (hp.eq_of_pairwise (fun a b _ _ hab hba => (key hab hba).elim) m.ascending n.ascending)

/-! ## Laws by key -/

theorem get?_insert [TransOrd α] [LawfulEqOrd α] [DecidableEq α] (m : OrdMap α β) (k j : α)
    (v : β) : (m.insert k v).get? j = if j = k then some v else m.get? j := by
  split
  next h => rw [h, get?_insert_self]
  next h => rw [get?_insert_of_ne m v h]

theorem get?_erase [TransOrd α] [LawfulEqOrd α] [DecidableEq α] (m : OrdMap α β) (k j : α) :
    (m.erase k).get? j = if j = k then none else m.get? j := by
  split
  next h => rw [h, get?_erase_self]
  next h => rw [get?_erase_of_ne m h]

theorem map_insert [TransOrd α] [LawfulEqOrd α] [DecidableEq α] (f : β → γ) (m : OrdMap α β) (k : α)
    (v : β) : (m.insert k v).map f = (m.map f).insert k (f v) := by
  refine ext fun j => ?_
  rw [get?_map, get?_insert, get?_insert, get?_map]
  split <;> rfl

theorem map_erase [TransOrd α] [LawfulEqOrd α] [DecidableEq α] (f : β → γ) (m : OrdMap α β)
    (k : α) : (m.erase k).map f = (m.map f).erase k := by
  refine ext fun j => ?_
  rw [get?_map, get?_erase, get?_erase, get?_map]
  split <;> rfl

theorem get?_insertIfNew [TransOrd α] [LawfulEqOrd α] [DecidableEq α] (m : OrdMap α β) (k j : α)
    (v : β) : (m.insertIfNew k v).get? j = (m.get? j).or (if j = k then some v else none) := by
  unfold insertIfNew contains
  by_cases hk : (m.get? k).isSome
  · obtain ⟨w, hw⟩ := Option.isSome_iff_exists.1 hk
    rw [if_pos hk]
    by_cases hj : j = k
    · simp [hj, hw]
    · simp [hj]
  · have hn : m.get? k = none := by simpa using hk
    rw [if_neg hk, get?_insert]
    by_cases hj : j = k
    · simp [hj, hn]
    · simp [hj]

theorem get?_insertIfNew_eq_some_iff [TransOrd α] [LawfulEqOrd α] [DecidableEq α]
    {m : OrdMap α β} {k j : α} {v w : β} : (m.insertIfNew k v).get? j = some w ↔
      m.get? j = some w ∨ m.get? j = none ∧ j = k ∧ w = v := by
  rw [get?_insertIfNew]
  cases m.get? j with
  | some u => simp
  | none => simp [eq_comm]

theorem get?_single [TransOrd α] [LawfulEqOrd α] [DecidableEq α] (k j : α) (v : β) :
    (single k v).get? j = if j = k then some v else none := by
  change lookup j [(k, v)] = _
  by_cases h : j = k
  · simp [lookup, h, ReflCmp.compare_self]
  · have hne : compare j k ≠ .eq := fun e => h (LawfulEqCmp.eq_of_compare e)
    simp only [lookup, if_neg h]
    split <;> simp_all

/-- A map made from a list of keys and a function gives the function's value to the members. -/
theorem get?_ofList_map [TransOrd α] [LawfulEqOrd α] [DecidableEq α] (f : α → β) (l : List α)
    (k : α) : (ofList (l.map fun a => (a, f a))).get? k = if k ∈ l then some (f k) else none := by
  have hmany (m : OrdMap α β) : (m.insertMany (l.map fun a => (a, f a))).get? k =
      if k ∈ l then some (f k) else m.get? k := by
    induction l generalizing m with
    | nil => rfl
    | cons a l ih =>
      rw [List.map_cons, insertMany, List.foldl_cons, ← insertMany, ih, get?_insert]
      by_cases hk : k = a
      · simp [hk]
      · simp [hk]
  exact hmany empty

theorem get?_filter [TransOrd α] [LawfulEqOrd α] (p : α → β → Bool) (m : OrdMap α β) (k : α) :
    (m.filter p).get? k = (m.get? k).filter (p k) := by
  refine Option.ext fun v => ?_
  rw [get?_eq_some_iff, Option.filter_eq_some_iff, get?_eq_some_iff]
  simp [filter]

theorem contains_iff {m : OrdMap α β} {k : α} : m.contains k = true ↔ ∃ v, m.get? k = some v :=
  Option.isSome_iff_exists

theorem mem_keys [TransOrd α] [LawfulEqOrd α] {m : OrdMap α β} {k : α} :
    k ∈ m.keys ↔ ∃ v, m.get? k = some v := by
  simp only [keys, List.mem_map, get?_eq_some_iff]
  constructor
  · rintro ⟨e, he, rfl⟩
    exact ⟨e.2, he⟩
  · rintro ⟨v, hv⟩
    exact ⟨(k, v), hv, rfl⟩

theorem nodup_keys [TransOrd α] (m : OrdMap α β) : m.keys.Nodup := by
  unfold keys List.Nodup
  rw [List.pairwise_map]
  refine m.ascending.imp fun {a b} hab hne => ?_
  simp [hne, ReflCmp.compare_self] at hab

theorem length_keys (m : OrdMap α β) : m.keys.length = m.size := List.length_map _

theorem isEmpty_iff [TransOrd α] [LawfulEqOrd α] {m : OrdMap α β} :
    m.isEmpty = true ↔ ∀ k, m.get? k = none := by
  rw [isEmpty, List.isEmpty_iff]
  constructor
  · intro h k
    rw [get?, h]
    rfl
  · intro h
    refine List.eq_nil_iff_forall_not_mem.2 fun e he => ?_
    have := get?_eq_some_iff.2 he
    rw [h] at this
    cases this

theorem exists_get?_of_ne_empty [TransOrd α] [LawfulEqOrd α] {m : OrdMap α β} (h : m ≠ ∅) :
    ∃ k v, m.get? k = some v := by
  refine Classical.byContradiction fun hnone => h (ext fun k => ?_)
  exact Option.eq_none_iff_forall_ne_some.2 fun v hv => hnone ⟨k, v, hv⟩

theorem place_eq_append [TransOrd α] {k : α} {v : β} {l : List (α × β)}
    (h : ∀ e ∈ l, compare e.1 k = .lt) : place k v l = l ++ [(k, v)] := by
  induction l with
  | nil => rfl
  | cons e l ih =>
    have hgt : compare k e.1 = .gt := OrientedCmp.gt_of_lt (h e (List.mem_cons_self ..))
    rw [place, hgt, List.cons_append, ih fun a ha => h a (List.mem_cons_of_mem _ ha)]

/-- Pairs that come by ascending key are put one behind the other. -/
theorem toList_insertMany [TransOrd α] {m : OrdMap α β} {l : List (α × β)}
    (h : (m.toList ++ l).Pairwise fun a b => compare a.1 b.1 = .lt) :
    (m.insertMany l).toList = m.toList ++ l := by
  induction l generalizing m with
  | nil => exact (List.append_nil _).symm
  | cons e l ih =>
    have hlast : (m.insert e.1 e.2).toList = m.toList ++ [e] :=
      place_eq_append fun a ha => (List.pairwise_append.1 h).2.2 a ha e (List.mem_cons_self ..)
    rw [insertMany, List.foldl_cons, ← insertMany, ih, hlast, List.append_assoc,
      List.singleton_append]
    rwa [hlast, List.append_assoc, List.singleton_append]

/-- The entries of a map take precedence over what they are inserted into. -/
theorem get?_insertMany_toList [TransOrd α] [LawfulEqOrd α] (m n : OrdMap α β) (k : α) :
    (m.insertMany n.toList).get? k = (n.get? k).or (m.get? k) := by
  obtain ⟨l, hl⟩ := n
  change (m.insertMany l).get? k = (lookup k l).or (m.get? k)
  induction l generalizing m with
  | nil => rfl
  | cons e l ih =>
    have hl' := List.pairwise_cons.1 hl
    rw [insertMany, List.foldl_cons, ← insertMany, ih _ hl'.2, lookup]
    cases hcmp : compare k e.1 with
    | lt =>
      have hne : k ≠ e.1 := by
        rintro rfl
        simp [ReflCmp.compare_self] at hcmp
      rw [get?_insert_of_ne m e.2 hne,
        lookup_eq_none_of_lt fun a ha => TransCmp.lt_trans hcmp (hl'.1 a ha)]
    | eq =>
      rw [LawfulEqCmp.eq_of_compare hcmp, get?_insert_self, lookup_eq_none_of_lt hl'.1]
      rfl
    | gt =>
      have hne : k ≠ e.1 := by
        rintro rfl
        simp [ReflCmp.compare_self] at hcmp
      rw [get?_insert_of_ne m e.2 hne]

/-- A map is built again from its entries. -/
theorem ofList_toList [TransOrd α] (m : OrdMap α β) : ofList m.toList = m :=
  eq_of_toList_eq (toList_insertMany m.ascending)

end OrdMap

end Confluence
