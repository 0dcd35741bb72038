import Confluence.Proofs.History.Window
import Confluence.Proofs.Repository.Responses

/-!
# Windows of a store

From a store that holds all parents a window can be loaded for any stored heads. It shows as many of
the heads and their ancestors as its limit allows, whatever levels the commits have.
-/

namespace Confluence

open History Program

variable {κ : Type} [CommitId κ] {s : Store κ} {heads : OrdSet κ}

/-- Without a limit a window holds exactly the heads and their ancestors. A limit of `n` leaves `n`
of these, or all if there are fewer, and each that is left is a head or a parent of another. -/
theorem Window.run_load (rule : IdRule κ) (hh : Closed s.commits)
    (hheads : ∀ x ∈ heads, ∃ c, s.commits.get? x = some c) (limit : Option Nat) :
    ∃ g, (load heads limit).run (Store.repository rule) s = (.ok g, s) ∧
      Loaded s.commits heads limit g := by
  have hreads : (load heads limit).Reads (s.view fun _ => False)
      (Loaded s.commits heads limit) fun _ => False :=
    reads_load hh hheads (fun _ hg => hg) fun _ he => he
  rcases hreads.run rule with hok | ⟨_, _, he⟩
  · exact hok
  · exact he.elim

def knotted : Store UInt64 where
  commits := .ofList (([
    ⟨1, .single 4 [], 1, 0, none⟩,
    ⟨2, .ofList [(1, []), (2, [])], 2, 0, none⟩,
    ⟨3, .single 1 [], 2, 0, none⟩,
    ⟨4, .ofList [(2, []), (3, [])], 3, 0, none⟩,
    ⟨5, .single 3 [], 3, 0, none⟩] : List (Commit UInt64)).map fun c => (c.id, c))

/-- The limit cuts the parents of the fourth commit off from their own parent. -/
theorem Window.run_load_knotted : ∃ g,
    (load (.single 4) (some 3)).run (Store.repository (.sequential 1)) knotted = (.ok g, knotted) ∧
      g.size = 3 ∧ Loaded knotted.commits (.single 4) (some 3) g := by
  have hstored : ∀ x ∈ OrdSet.single (4 : UInt64), ∃ c, knotted.commits.get? x = some c := by
    intro x hx
    rw [OrdSet.mem_single.1 hx]
    exact ⟨_, rfl⟩
  obtain ⟨g, hrun, hloaded⟩ := run_load (.sequential 1) (by decide) hstored (some 3)
  have hsize : ((load (.single 4) (some 3)).run (Store.repository (.sequential 1))
      knotted).1.map Graph.size = .ok 3 := by decide +kernel
  rw [hrun] at hsize
  exact ⟨g, hrun, Except.ok.inj hsize, hloaded⟩

end Confluence
