import Confluence.Proofs.History.Frontier
import Confluence.Proofs.History.Window

/-!
# Walks that come to nothing twice

The walks mark what they have met at different moments: when it is found, when it is visited, or
when it is put on the frontier. What they have in common is that a parent is looked at only if it
has not been met, and is met from then on. `Roaming` is what this keeps, in any history: every
commit that is met lies below the heads, is visited once at most, and is loaded once at most. Levels
have no part in it, and parents may be missing.
-/

namespace Confluence

variable {κ : Type} [CommitId κ] {β : Type} {h g : History κ} {heads : OrdSet κ}

theorem History.Extends.below (he : h.Extends g) : h.below heads ⊆ g.below heads :=
  fun _ ⟨head, hhead, ha⟩ => ⟨head, hhead, he.ancestor ha⟩

theorem Course.grow {visited : List κ} {f : Frontier κ β} (hc : Course h visited f)
    (he : h.Extends g) : Course g visited f where
  entry := fun hx => he _ _ (hc.entry hx)
  unvisited := hc.unvisited
  nodup := hc.nodup
  stored := fun hv => (hc.stored hv).imp fun c hc => he _ c hc

theorem Course.exists_get?_iff {visited : List κ} {f rest : Frontier κ β} {e : Commit κ × β}
    (hc : Course h visited f) (hf : h.Filed) (hpop : f.pop? = some (e, rest)) {x : κ} :
    (∃ y, f.get? x = some y) ↔ x = e.1.id ∨ ∃ y, rest.get? x = some y := by
  obtain ⟨he, rfl, -⟩ := Frontier.pop?_eq_some (fun _ _ he => hf _ _ (hc.entry he)) hpop
  rw [OrdMap.get?_erase]
  by_cases hx : x = e.1.id
  · subst hx
    simp [he]
  · simp [hx]

structure Sparing (h : History κ) (heads : OrdSet κ) (visits loads : List κ) : Prop where
  visited_once : visits.Nodup
  loaded_once : loads.Nodup
  below : ∀ x ∈ visits, x ∈ h.below heads

theorem Sparing.start (h : History κ) {asked : List κ} (hasked : asked <+: heads.toList) :
    Sparing h heads [] asked :=
  ⟨.nil, heads.nodup_toList.sublist hasked.sublist, fun _ hx => absurd hx List.not_mem_nil⟩

structure Roaming (h : History κ) (heads : OrdSet κ) (visits loads : List κ) (met : κ → Prop)
    (f : Frontier κ β) : Prop where
  course : Course h visits.reverse f
  visited_met : ∀ x ∈ visits, met x
  entry_met : ∀ x e, f.get? x = some e → met x
  loaded_met : ∀ x ∈ loads, met x
  loaded_once : loads.Nodup
  below : ∀ x, met x → x ∈ h.below heads

namespace Roaming

variable {visits loads : List κ} {met met' : κ → Prop} {f rest : Frontier κ β} {e : Commit κ × β}

theorem start (hf : h.Filed) {cs : List (Commit κ)}
    (hcs : heads.toList.map h.get? = cs.map some) (b : Commit κ → β) :
    Roaming h heads [] heads.toList (· ∈ heads) (Frontier.add ∅ (cs.map fun c => (c, b c))) where
  course := .start hf hcs b
  visited_met := fun _ hx => absurd hx List.not_mem_nil
  entry_met := fun x e hx => ((Frontier.get?_add_loaded hf hcs b x e).1 hx).1
  loaded_met := fun _ hx => hx
  loaded_once := heads.nodup_toList
  below := fun x hx => ⟨x, hx, .refl x⟩

theorem congr (hr : Roaming h heads visits loads met f) (hmet : ∀ x, met x ↔ met' x) :
    Roaming h heads visits loads met' f := by
  obtain rfl : met = met' := funext fun x => propext (hmet x)
  exact hr

theorem grow (hr : Roaming h heads visits loads met f) (he : h.Extends g) :
    Roaming g heads visits loads met f where
  course := hr.course.grow he
  visited_met := hr.visited_met
  entry_met := hr.entry_met
  loaded_met := hr.loaded_met
  loaded_once := hr.loaded_once
  below := fun x hx => he.below (hr.below x hx)

theorem sparing (hr : Roaming h heads visits loads met f) : Sparing h heads visits loads where
  visited_once := List.nodup_reverse.1 hr.course.nodup
  loaded_once := hr.loaded_once
  below := fun x hx => hr.below x (hr.visited_met x hx)

/-- No more commits have been visited than are stored, and fewer while one is left to visit. -/
theorem length_le (hr : Roaming h heads visits loads met f) (hf : h.Filed) :
    visits.length ≤ h.size ∧ (f.pop?.map (·.1.1.id) ≠ none → visits.length < h.size) := by
  constructor
  · rw [← OrdMap.length_keys]
    refine ((List.nodup_reverse.1 hr.course.nodup).subperm fun v hv => ?_).length_le
    exact OrdMap.mem_keys.2 (hr.course.stored (List.mem_reverse.2 hv))
  · intro hcurrent
    obtain ⟨id, hid⟩ := Option.ne_none_iff_exists'.1 hcurrent
    obtain ⟨⟨e, rest⟩, hpop, -⟩ := Option.map_eq_some_iff.1 hid
    rw [← List.length_reverse]
    exact hr.course.length_lt (hr.course.pop hf hpop).1

/-- What a visit looks at are parents of the visited commit that have not been met. -/
structure Fresh (met : κ → Prop) (c : Commit κ) (fresh : List κ) : Prop where
  nodup : fresh.Nodup
  unmet : ∀ x ∈ fresh, ¬met x
  parent : ∀ x ∈ fresh, x ∈ c.parentIds

theorem Fresh.filter (met : κ → Prop) (c : Commit κ) (p : κ → Bool)
    (hp : ∀ x, p x = true → ¬met x) : Fresh met c (c.parentIds.filter p) where
  nodup := (OrdMap.nodup_keys c.parents).filter p
  unmet := fun x hx => hp x (List.mem_filter.1 hx).2
  parent := fun _ hx => List.mem_of_mem_filter hx

theorem Fresh.unseen (seen : OrdSet κ) (c : Commit κ) :
    Fresh (· ∈ seen) c (c.parentIds.filter fun p => !seen.contains p) := by
  refine .filter _ c _ fun x hx => ?_
  rwa [Bool.not_eq_true', ← Bool.not_eq_true, OrdSet.contains_iff_mem] at hx

variable {fresh asked : List κ}

theorem nodup_loads (hr : Roaming h heads visits loads met f) (hfresh : Fresh met e.1 fresh) :
    (loads ++ fresh).Nodup :=
  hr.loaded_once.append hfresh.nodup fun x hx hnew => hfresh.unmet x hnew (hr.loaded_met x hx)

/-- A visit that goes no further than to ask for some of the parents. -/
theorem sparing_pop (hr : Roaming h heads visits loads met f) (hf : h.Filed)
    (hpop : f.pop? = some (e, rest)) (hfresh : Fresh met e.1 fresh) (hasked : asked <+: fresh) :
    Sparing h heads (visits ++ [e.1.id]) (loads ++ asked) := by
  obtain ⟨he, -, hcourse⟩ := hr.course.pop hf hpop
  constructor
  · rw [← List.nodup_reverse, List.reverse_append]
    exact hcourse.nodup
  · exact (hr.nodup_loads hfresh).sublist (hasked.sublist.append_left loads)
  · intro x hx
    rcases List.mem_append.1 hx with hx | hx
    · exact hr.below x (hr.visited_met x hx)
    · rw [List.mem_singleton.1 hx]
      exact hr.below _ (hr.entry_met _ e he)

theorem visit (hr : Roaming h heads visits loads met f) (hf : h.Filed)
    (hpop : f.pop? = some (e, rest)) (hfresh : Fresh met e.1 fresh)
    (hmet : ∀ x, met' x ↔ met x ∨ x ∈ fresh) {f' : Frontier κ β}
    (hf' : ∀ x y, f'.get? x = some y → h.get? x = some y.1 ∧
      ((∃ z, rest.get? x = some z) ∨ x ∈ fresh)) :
    Roaming h heads (visits ++ [e.1.id]) (loads ++ fresh) met' f' := by
  obtain ⟨he, hrest, hcourse⟩ := hr.course.pop hf hpop
  have hcurrent : met e.1.id := hr.entry_met _ e he
  have hold {x : κ} (hx : x ∈ visits ++ [e.1.id]) : met x := by
    rcases List.mem_append.1 hx with hx | hx
    · exact hr.visited_met x hx
    · exact List.mem_singleton.1 hx ▸ hcurrent
  constructor
  · rw [List.reverse_append]
    refine ⟨fun {x y} hy => (hf' x y hy).1, fun {x y} hy hx => ?_, hcourse.nodup, hcourse.stored⟩
    rcases (hf' x y hy).2 with ⟨z, hz⟩ | hnew
    · exact hcourse.unvisited hz hx
    · refine hfresh.unmet x hnew (hold (List.mem_reverse.1 ?_))
      rwa [List.reverse_append]
  · exact fun x hx => (hmet x).2 (.inl (hold hx))
  · intro x y hy
    rcases (hf' x y hy).2 with ⟨z, hz⟩ | hnew
    · exact (hmet x).2 (.inl (hr.entry_met x z (hrest x z hz)))
    · exact (hmet x).2 (.inr hnew)
  · intro x hx
    exact (hmet x).2 ((List.mem_append.1 hx).imp_left (hr.loaded_met x))
  · exact hr.nodup_loads hfresh
  · intro x hx
    rcases (hmet x).1 hx with hx | hx
    · exact hr.below x hx
    · obtain ⟨head, hhead, ha⟩ := hr.below _ hcurrent
      have hparent : h.IsParent x e.1.id :=
        (History.isParent_iff (hr.course.entry he)).2 (hfresh.parent x hx)
      exact ⟨head, hhead, hparent.ancestor.trans ha⟩

theorem get?_add_loaded (hr : Roaming h heads visits loads met f) (hf : h.Filed)
    (hpop : f.pop? = some (e, rest)) {entries : List (Commit κ × β)}
    (hentries : ∀ y ∈ entries, h.get? y.1.id = some y.1 ∧ y.1.id ∈ fresh) (x : κ)
    (y : Commit κ × β) (hy : (rest.add entries).get? x = some y) :
    h.get? x = some y.1 ∧ ((∃ z, rest.get? x = some z) ∨ x ∈ fresh) := by
  obtain ⟨-, -, hcourse⟩ := hr.course.pop hf hpop
  rcases rest.get?_add entries x with ⟨z, hz, rfl, hget⟩ | ⟨-, hget⟩
  · cases hy.symm.trans hget
    exact ⟨(hentries y hz).1, .inr (hentries y hz).2⟩
  · rw [hy] at hget
    exact ⟨hcourse.entry hget.symm, .inl ⟨y, hget.symm⟩⟩

end Roaming

end Confluence
