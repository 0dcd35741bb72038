import Confluence.Proofs.History.Ancestry

/-!
# Replaying a history

A commit without parents stands for the empty document, any other one for what its parents stand
for with the edge from there applied. The history alone tells what a commit can be replayed to. In a
sound history that starts from the empty document every commit is replayed in one way, whichever
parents are followed, and replaying gives what it did before when more commits are stored.
-/

namespace Confluence.History

variable {κ : Type} [CommitId κ]

inductive Replays (h : History κ) : κ → Document → Prop where
  | root {id : κ} {c : Commit κ} (hc : h.get? id = some c) (hparents : c.parents = ∅) :
      Replays h id ∅
  | child {id p : κ} {c : Commit κ} {edge : List Operation} {d : Document}
      (hc : h.get? id = some c) (hedge : c.parents.get? p = some edge) (hp : Replays h p d) :
      Replays h id (d.applyAll edge)

variable {h g : History κ} {doc : κ → Document} {id : κ} {d : Document}

theorem Replays.stored (hr : h.Replays id d) : ∃ c, h.get? id = some c := by
  cases hr with
  | root hc => exact ⟨_, hc⟩
  | child hc => exact ⟨_, hc⟩

theorem Replays.grow (hr : h.Replays id d) (he : h.Extends g) : g.Replays id d := by
  induction hr with
  | root hc hparents => exact .root (he _ _ hc) hparents
  | child hc hedge _ ih => exact .child (he _ _ hc) hedge ih

namespace Sound

/-- Where only the empty document comes without parents, a commit is replayed to its document. -/
theorem eq_of_replays (hs : h.Sound doc)
    (hblank : ∀ id c, h.get? id = some c → c.parents = ∅ → doc id = ∅) (hr : h.Replays id d) :
    d = doc id := by
  induction hr with
  | root hc hparents => exact (hblank _ _ hc hparents).symm
  | child hc hedge _ ih =>
      rw [ih]
      exact (hs.leads hc hedge).applyAll_eq

theorem replays (hs : h.Sound doc)
    (hblank : ∀ id c, h.get? id = some c → c.parents = ∅ → doc id = ∅) {c : Commit κ}
    (hc : h.get? id = some c) : h.Replays id (doc id) := by
  refine hs.induction_on (P := fun id => h.Replays id (doc id)) (fun m c hc ih => ?_) hc
  by_cases hparents : c.parents = ∅
  · rw [hblank m c hc hparents]
    exact .root hc hparents
  · obtain ⟨p, edge, hedge⟩ := OrdMap.exists_get?_of_ne_empty hparents
    rw [← (hs.leads hc hedge).applyAll_eq]
    exact .child hc hedge (ih p (.single ⟨c, edge, hc, hedge⟩))

theorem replays_iff (hs : h.Sound doc)
    (hblank : ∀ id c, h.get? id = some c → c.parents = ∅ → doc id = ∅) :
    h.Replays id d ↔ (∃ c, h.get? id = some c) ∧ d = doc id := by
  constructor
  · intro hr
    exact ⟨hr.stored, hs.eq_of_replays hblank hr⟩
  · rintro ⟨⟨c, hc⟩, rfl⟩
    exact hs.replays hblank hc

end Sound

end Confluence.History
