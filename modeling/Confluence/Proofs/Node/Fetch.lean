import Confluence.Node.Basic
import Confluence.Proofs.History.Search

/-!
# What a node reads from the heads

A node learns of others in two ways, both of which only read: from a commit below some heads it
finds the operations on to one of them, and from the snapshots below some heads it rebuilds the
document of one of them. What it ends up with leads between the documents of a sound history,
whichever route the search takes.
-/

namespace Confluence

open History Program

variable {κ : Type} [CommitId κ]

namespace Node

structure Reaches (h : History κ) (doc : κ → Document) (heads : OrdSet κ) (current : κ)
    (f : Fetched κ) : Prop where
  mem : f.commit ∈ heads
  above : h.Ancestor current f.commit
  level : ∃ c, h.get? f.commit = some c ∧ f.level = c.level
  diffs : ∃ l, Document.Leads (doc current) l (doc f.commit) ∧ f.diffs = Operation.squash l

theorem Reaches.leads {h : History κ} {doc : κ → Document} {heads : OrdSet κ} {current : κ}
    {f : Fetched κ} (hf : Reaches h doc heads current f) :
    Document.Leads (doc current) f.diffs (doc f.commit) := by
  obtain ⟨l, hl, hd⟩ := hf.diffs
  exact hd ▸ hl.squash

/-- From a commit below some head one of the heads is reached. -/
theorem reads_fetchFrom {v : View κ} {doc : κ → Document} {heads : OrdSet κ} {current : κ}
    {P : Fetched κ → Prop} {E : Fault → Prop} (hs : v.commits.Sound doc)
    (hheads : ∀ x ∈ heads, ∃ c, v.commits.get? x = some c)
    (hbelow : ∃ x ∈ heads, v.commits.Ancestor current x)
    (hP : ∀ f, Reaches v.commits doc heads current f → P f) (hE : ∀ e, v.fails e → E e) :
    (fetchFrom heads current).Reads v P E := by
  apply Reads.bind
  refine Search.reads_find hs.toGraded hheads (Search.judges_isCommit _ current)
    (fun found hfound => reads_pure (hP _ ?_)) (fun hnone => ?_) hE
  · obtain ⟨hmem, hchild, edges, hroute, hdiffs⟩ := hfound.path
    have hcommit : found.commit = current := by
      obtain ⟨d, hd, haccept⟩ := hfound.accepted
      have hid : d.id = found.commit := hs.filed hd
      split at haccept
      next hdc => exact hid.symm.trans hdc
      next => cases haccept
    obtain ⟨c, hc, hlevel, -⟩ := hchild
    rw [hcommit] at hroute
    refine ⟨hmem, hroute.ancestor, ⟨c, hc, hlevel⟩, found.path.diffs, ?_, rfl⟩
    rw [hdiffs]
    exact hs.leads_fold_squashed hroute
  · obtain ⟨x, hx, ha⟩ := hbelow
    obtain ⟨cx, hcx⟩ := hheads x hx
    obtain ⟨c, hc⟩ := hs.exists_of_ancestor ha hcx
    have hreject := hnone x hx current c ha hc
    rw [hs.filed hc] at hreject
    simp at hreject

structure Rebuilt (v : View κ) (doc : κ → Document) (heads : OrdSet κ)
    (found : Found κ (List Operation) (List Operation)) : Prop where
  mem : found.path.child ∈ heads
  snapshot : v.snapshots found.commit = some found.value
  below : v.commits.Ancestor found.commit found.path.child
  leads : Document.Leads ∅ (found.value ++ found.path.diffs) (doc found.path.child)

/-- A search for snapshots rebuilds the document of a head, unless there is no snapshot below the
heads. -/
theorem reads_findSnapshot {v : View κ} {doc : κ → Document} {heads : OrdSet κ}
    {P : Found κ (List Operation) (List Operation) → Prop} {E : Fault → Prop}
    (hs : v.commits.Sound doc) (hheads : ∀ x ∈ heads, ∃ c, v.commits.get? x = some c)
    (hsnapshots : ∀ id l, v.snapshots id = some l → Document.Leads ∅ l (doc id))
    (hP : ∀ found, Rebuilt v doc heads found → P found)
    (hnone : (∀ x ∈ heads, ∀ a, v.commits.Ancestor a x → v.snapshots a = none) →
      E (Search.exhausted heads))
    (hE : ∀ e, v.fails e → E e) :
    (Search.find heads Accumulator.list Search.hasSnapshot).Reads v P E := by
  refine Search.reads_find hs.toGraded hheads (Search.judges_hasSnapshot v)
    (fun found hfound => hP found ?_) (fun hreject => hnone fun x hx a ha => ?_) hE
  · obtain ⟨hmem, -, edges, hroute, hdiffs⟩ := hfound.path
    obtain ⟨c, hc, haccept⟩ := hfound.accepted
    have hsnapshot : v.snapshots found.commit = some found.value := hs.filed hc ▸ haccept
    refine ⟨hmem, hsnapshot, hroute.ancestor, (hsnapshots _ _ hsnapshot).append ?_⟩
    rw [hdiffs]
    exact hs.leads_fold_list hroute
  · obtain ⟨cx, hcx⟩ := hheads x hx
    obtain ⟨c, hc⟩ := hs.exists_of_ancestor ha hcx
    have hnone := hreject x hx a c ha hc
    rwa [hs.filed hc] at hnone

end Node

end Confluence
