import Confluence.History.Checkout
import Confluence.Proofs.Document.Difference
import Confluence.Proofs.History.Replay
import Confluence.Proofs.Node.Fetch
import Confluence.Proofs.Repository.Levels

/-!
# Snapshots and checkouts

Where documents can be rebuilt, a checkout of a commit depends on two things only: it succeeds if
there is a snapshot below the commit, whichever, and then answers with the list that writes the
document of the commit. A snapshot that is saved is such a list. It makes nothing available that
was not so before, so no later checkout can tell whether it was saved, whatever happens in between.
-/

namespace Confluence

open History Program

variable {κ : Type} [CommitId κ]

namespace Store

/-- A store from which documents can be rebuilt: its history is sound and starts from the empty
document, and its snapshots build the documents of stored commits. -/
structure Rebuilds (s : Store κ) (doc : κ → Document) : Prop extends Sound s.commits doc where
  blank : ∀ {id c}, s.commits.get? id = some c → c.parents = ∅ → doc id = ∅
  snapshots : ∀ {id l}, s.snapshots.get? id = some l →
    (∃ c, s.commits.get? id = some c) ∧ Document.Leads ∅ l (doc id)
  heads : ∀ x ∈ s.heads, ∃ c, s.commits.get? x = some c

def Covered (s : Store κ) (id : κ) : Prop :=
  ∃ a l, s.snapshots.get? a = some l ∧ Ancestor s.commits a id

variable {rule : IdRule κ} {s t : Store κ} {doc doc' : κ → Document} {id : κ}

abbrev snapshotted (s : Store κ) (id : κ) (l : List Operation) : Store κ :=
  { s with snapshots := s.snapshots.insert id l }

def absence (s : Store κ) (id : κ) : Fault :=
  if s.commits.contains id then Search.exhausted (.single id) else missing id

namespace Rebuilds

theorem replays (hs : s.Rebuilds doc) {c : Commit κ} (hc : s.commits.get? id = some c) :
    Replays s.commits id (doc id) := hs.toSound.replays (fun _ _ => hs.blank) hc

theorem eq_of_replays (hs : s.Rebuilds doc) {d : Document} (hd : Replays s.commits id d) :
    d = doc id := hs.toSound.eq_of_replays (fun _ _ => hs.blank) hd

theorem agrees (hs : s.Rebuilds doc) (ht : t.Rebuilds doc') (he : Extends s.commits t.commits)
    {c : Commit κ} (hc : s.commits.get? id = some c) : doc' id = doc id :=
  (ht.eq_of_replays ((hs.replays hc).grow he)).symm

theorem stored_of_covered (hs : s.Rebuilds doc) (h : s.Covered id) :
    ∃ c, s.commits.get? id = some c := by
  obtain ⟨a, l, hl, ha⟩ := h
  obtain ⟨c, hc⟩ := (hs.snapshots hl).1
  rcases ha.cases_parent with rfl | ⟨p, -, commit, edge, hcommit, -⟩
  · exact ⟨c, hc⟩
  · exact ⟨commit, hcommit⟩

/-! ## Checkouts -/

theorem reads_findSnapshot (hs : s.Rebuilds doc) {heads : OrdSet κ}
    (hheads : ∀ x ∈ heads, ∃ c, s.commits.get? x = some c) :
    (Search.find heads Accumulator.list Search.hasSnapshot).Reads (s.view fun _ => False)
      (fun found => found.path.child ∈ heads ∧ s.Covered found.path.child ∧
        Document.Leads ∅ (found.value ++ found.path.diffs) (doc found.path.child))
      (fun e => e = Search.exhausted heads ∧ ∀ x ∈ heads, ¬s.Covered x) := by
  refine Node.reads_findSnapshot hs.toSound hheads (fun id l hl => (hs.snapshots hl).2)
    (fun found hf => ?_) (fun hnone => ?_) fun _ he => he.elim
  · exact ⟨hf.mem, ⟨found.commit, found.value, hf.snapshot, hf.below⟩, hf.leads⟩
  · refine ⟨rfl, ?_⟩
    rintro x hx ⟨a, l, hl, ha⟩
    have hnone : s.snapshots.get? a = none := hnone x hx a ha
    rw [hnone] at hl
    cases hl

theorem ensures_checkoutAt (rule : IdRule κ) (hs : s.Rebuilds doc) (id : κ) :
    (Checkout.checkoutAt id).Ensures (environment rule (fun _ => False) fun _ => True)
      (fun l t => (s.Covered id ∧ l = (doc id).written) ∧ t = s)
      (fun e t => (¬s.Covered id ∧ e = s.absence id) ∧ t = s) s := by
  cases hc : s.commits.get? id with
  | none =>
      have hcontains : s.commits.contains id = false := by simp [OrdMap.contains, hc]
      refine ⟨trivial, ?_⟩
      rintro a t ⟨ha | ⟨_, he, -⟩, -⟩
      · simp only [answer, hc] at ha
        cases ha
        refine ⟨⟨fun h => ?_, by simp [absence, hcontains]⟩, rfl⟩
        obtain ⟨c, hc'⟩ := hs.stored_of_covered h
        rw [hc] at hc'
        cases hc'
      · exact he.elim
  | some c =>
      have hcontains : s.commits.contains id = true := by simp [OrdMap.contains, hc]
      have hheads : ∀ x ∈ OrdSet.single id, ∃ c, s.commits.get? x = some c := by
        intro x hx
        rw [OrdSet.mem_single.1 hx]
        exact ⟨c, hc⟩
      have hreads : (Checkout.checkoutAt id).Reads (s.view fun _ => False)
          (fun l => s.Covered id ∧ l = (doc id).written)
          fun e => ¬s.Covered id ∧ e = s.absence id := by
        apply Reads.bind
        refine (hs.reads_findSnapshot hheads).mono (fun found hf => reads_pure ?_) fun e he => ?_
        · obtain ⟨hmem, hcovered, hleads⟩ := hf
          rw [OrdSet.mem_single.1 hmem] at hcovered hleads
          exact ⟨hcovered, hleads.squash_written⟩
        · exact ⟨he.2 id (OrdSet.mem_single.2 rfl), by simpa [absence, hcontains] using he.1⟩
      exact hreads.ensures (environment_serves s) rfl

theorem checkoutAt_of_covered (rule : IdRule κ) (hs : s.Rebuilds doc) (h : s.Covered id) :
    (Checkout.checkoutAt id).run (repository rule) s = (.ok (doc id).written, s) := by
  rcases (hs.ensures_checkoutAt rule id).run with
    ⟨_, _, hrun, ⟨-, rfl⟩, rfl⟩ | ⟨_, _, -, ⟨hn, -⟩, -⟩
  · exact hrun
  · exact absurd h hn

theorem checkoutAt_of_not_covered (rule : IdRule κ) (hs : s.Rebuilds doc) (h : ¬s.Covered id) :
    (Checkout.checkoutAt id).run (repository rule) s = (.error (s.absence id), s) := by
  rcases (hs.ensures_checkoutAt rule id).run with
    ⟨_, _, -, ⟨hn, -⟩, -⟩ | ⟨_, _, hrun, ⟨-, rfl⟩, rfl⟩
  · exact absurd hn h
  · exact hrun

/-- From a head to another one that is active it takes a fetch, and together they write one
document. -/
theorem ensures_checkout (rule : IdRule κ) (hs : s.Rebuilds doc) :
    (Node.checkout : Program κ (Fetched κ)).Ensures
      (environment rule (fun _ => False) fun _ => True)
      (fun f t => ((∃ x ∈ s.activeHeads, s.Covered x) ∧ f.commit ∈ s.activeHeads ∧
        (∃ c, s.commits.get? f.commit = some c ∧ f.level = c.level) ∧
          f.diffs = (doc f.commit).written) ∧ t = s)
      (fun e t => ((∀ x ∈ s.activeHeads, ¬s.Covered x) ∧
        e = Search.exhausted s.activeHeads) ∧ t = s) s := by
  have hheads : ∀ x ∈ s.activeHeads, ∃ c, s.commits.get? x = some c := fun x hx =>
    hs.heads x (activeHeads_subset hx)
  apply Ensures.bind
  refine ensures_activeHeads ?_ fun _ he => he.elim
  apply Ensures.bind
  refine ((hs.reads_findSnapshot hheads).ensures (environment_serves s) rfl).mono ?_ ?_
  · rintro found t ⟨⟨hmem, hcovered, hleads⟩, rfl⟩
    apply Ensures.bind
    apply Ensures.bind
    refine ensures_activeHeads ?_ fun _ he => he.elim
    have hfetch : (Node.fetchFrom t.activeHeads found.path.child).Reads (t.view fun _ => False)
        (Node.Reaches t.commits doc t.activeHeads found.path.child) fun _ => False :=
      Node.reads_fetchFrom hs.toSound hheads ⟨found.path.child, hmem, .refl _⟩ (fun _ hf => hf)
        fun _ he => he
    refine (hfetch.ensures (environment_serves t) rfl).mono ?_ fun _ _ he => he.1.elim
    rintro f u ⟨hf, rfl⟩
    refine ensures_pure ⟨⟨⟨_, hmem, hcovered⟩, hf.mem, hf.level, ?_⟩, rfl⟩
    exact (hleads.append hf.leads).squash_written
  · rintro e t ⟨⟨he, hnone⟩, rfl⟩
    exact ⟨⟨hnone, he⟩, rfl⟩

/-- Saving a snapshot stores what a checkout answers with. -/
theorem saveSnapshot (rule : IdRule κ) (hs : s.Rebuilds doc) (id : κ) :
    s.Covered id ∧ ((Checkout.saveSnapshot id).run (repository rule) s).2 =
        s.snapshotted id (doc id).written ∨
      ((Checkout.saveSnapshot id).run (repository rule) s).2 = s := by
  have hsave : (Checkout.saveSnapshot id).Ensures (environment rule (fun _ => False) fun _ => True)
      (fun _ t => s.Covered id ∧ t = s.snapshotted id (doc id).written)
      (fun _ t => t = s) s := by
    apply Ensures.bind
    refine (hs.ensures_checkoutAt rule id).mono ?_ fun e t he => he.2
    rintro l t ⟨⟨hcovered, rfl⟩, rfl⟩
    have hcontains : t.commits.contains id = true :=
      OrdMap.contains_iff.2 (hs.stored_of_covered hcovered)
    have hanswer : t.answer rule (.saveSnapshot id (doc id).written) =
        (.ok (), t.snapshotted id (doc id).written) := by
      simp [answer, Store.saveSnapshot, hcontains]
    exact ensures_ask_of_answer (fun _ h => by cases h) hanswer (fun _ => ⟨hcovered, rfl⟩)
      fun _ he => he.elim
  rcases hsave.run with ⟨_, t, hrun, ht⟩ | ⟨_, t, hrun, ht⟩
  · exact .inl (hrun ▸ ht)
  · exact .inr (hrun ▸ ht)

end Rebuilds

/-! ## More snapshots -/

/-- The second store is the first one with more snapshots, all of them of commits of a history that
are covered in the first one, where each writes the commit's document. -/
structure Refreshed (known : History κ) (doc : κ → Document) (s t : Store κ) : Prop where
  commits : t.commits = s.commits
  heads : t.heads = s.heads
  kept : ∀ id l, s.snapshots.get? id = some l → ∃ l', t.snapshots.get? id = some l'
  added : ∀ id l, t.snapshots.get? id = some l → s.snapshots.get? id = some l ∨
    s.Covered id ∧ (∃ c, known.get? id = some c) ∧ l = (doc id).written

/-- What has a snapshot below it keeps it while the history grows and snapshots are replaced. -/
theorem Covered.grow (h : s.Covered id) (he : Extends s.commits t.commits)
    (hkept : ∀ id l, s.snapshots.get? id = some l → ∃ l', t.snapshots.get? id = some l') :
    t.Covered id := by
  obtain ⟨a, l, hl, ha⟩ := h
  obtain ⟨l', hl'⟩ := hkept a l hl
  exact ⟨a, l', hl', he.ancestor ha⟩

namespace Refreshed

variable {known : History κ} {s' t' : Store κ}

theorem covered_iff (h : Refreshed known doc s t) : t.Covered id ↔ s.Covered id := by
  constructor
  · rintro ⟨a, l, hl, ha⟩
    rw [h.commits] at ha
    rcases h.added a l hl with hl | ⟨⟨b, l', hl', hb⟩, -⟩
    · exact ⟨a, l, hl, ha⟩
    · exact ⟨b, l', hl', hb.trans ha⟩
  · intro hcovered
    refine hcovered.grow ?_ h.kept
    rw [h.commits]
    exact .refl _

theorem rebuilds (h : Refreshed known doc s t) (hs : s.Rebuilds doc')
    (hagrees : ∀ id c, known.get? id = some c → doc' id = doc id) : t.Rebuilds doc' := by
  have hstored (id : κ) (h : s.Covered id) : ∃ c, s.commits.get? id = some c :=
    hs.stored_of_covered h
  obtain ⟨hsound, hblank, hsnapshots, hheads⟩ := hs
  rw [← h.commits] at hsound hblank hsnapshots hheads hstored
  refine ⟨hsound, hblank, fun {id l} hl => ?_, h.heads ▸ hheads⟩
  rcases h.added id l hl with hl | ⟨hcovered, ⟨c, hc⟩, rfl⟩
  · exact hsnapshots hl
  · rw [← hagrees id c hc]
    exact ⟨hstored id hcovered, Document.leads_written _⟩

theorem congr (h : Refreshed known doc s t) (he : Extends s.commits s'.commits)
    (hcommits : t'.commits = s'.commits) (hheads : t'.heads = s'.heads)
    (hs : s'.snapshots = s.snapshots) (ht : t'.snapshots = t.snapshots) :
    Refreshed known doc s' t' := by
  refine ⟨hcommits, hheads, ?_, ?_⟩
  · rw [hs, ht]
    exact h.kept
  · rw [hs, ht]
    intro id l hl
    rcases h.added id l hl with hl | ⟨hcovered, hknown⟩
    · exact .inl hl
    · refine .inr ⟨hcovered.grow he fun id l hl => ⟨l, ?_⟩, hknown⟩
      rw [hs, hl]

theorem snapshotted (h : Refreshed known doc s t) (x : κ) (l : List Operation) :
    Refreshed known doc (s.snapshotted x l) (t.snapshotted x l) := by
  have hkept (id : κ) (l' : List Operation) (hl : s.snapshots.get? id = some l') :
      ∃ l', (s.snapshotted x l).snapshots.get? id = some l' := by
    rw [OrdMap.get?_insert]
    split
    next => exact ⟨l, rfl⟩
    next => exact ⟨l', hl⟩
  refine ⟨h.commits, h.heads, fun id l' hl => ?_, fun id l' hl => ?_⟩
  · rw [OrdMap.get?_insert] at hl ⊢
    split at hl
    next hid => exact ⟨l, if_pos hid⟩
    next hid => exact (h.kept id l' hl).imp fun _ hl => (if_neg hid).trans hl
  · rw [OrdMap.get?_insert] at hl ⊢
    split at hl
    next hid => exact .inl ((if_pos hid).trans hl)
    next hid =>
      rcases h.added id l' hl with hl | ⟨hcovered, hknown⟩
      · exact .inl ((if_neg hid).trans hl)
      · exact .inr ⟨hcovered.grow (.refl _) hkept, hknown⟩

theorem answer (h : Refreshed known doc s t) (r : Request κ) :
    Refreshed known doc (s.answer rule r).2 (t.answer rule r).2 := by
  cases r with
  | push batch =>
      have hfault (levels : OrdMap κ Nat) : t.commitFault? levels = s.commitFault? levels := by
        funext c
        have hparent : t.parentFault? levels c = s.parentFault? levels c := by
          funext p
          simp only [parentFault?, levelOf?, h.commits]
        simp only [commitFault?, hparent, h.commits]
      simp only [Store.answer, push, hfault]
      cases hf : batch.findSome? (s.commitFault? (batchLevels batch)) with
      | some e => exact h
      | none =>
          have hs : Pushed s batch _ := push_eq_ok_iff.1 (by simp only [push, hf]; rfl)
          refine h.congr hs.history_extends ?_ h.heads rfl rfl
          simp only [h.commits]
  | updateHeads added removed =>
      simp only [Store.answer, updateHeads, h.commits, h.heads]
      split
      next => exact h
      next =>
        refine h.congr ?_ ?_ ?_ ?_ ?_
        all_goals simp [Extends.refl]
  | saveSnapshot id l =>
      simp only [Store.answer, saveSnapshot, h.commits]
      split
      next =>
        have hsnapshot := h.snapshotted id l
        simpa only [Store.snapshotted, h.commits] using hsnapshot
      next => exact h
  | loadCommit id =>
      simp only [Store.answer, h.commits]
      split <;> exact h
  | create => exact h.congr (.refl _) h.commits h.heads rfl rfl
  | allHeads | activeHeads | loadSnapshot | countCommits => exact h

theorem after (h : Refreshed known doc s t) (requests : List (Request κ)) :
    Refreshed known doc (after rule requests s) (after rule requests t) := by
  induction requests generalizing s t with
  | nil => exact h
  | cons r requests ih => exact ih (h.answer r)

end Refreshed

/-- How checkouts end: a commit is checked out exactly if there is a snapshot below it, and a node
checks out an active head exactly if there is a snapshot below one. The answers write documents into
the empty one. -/
structure ChecksOut (rule : IdRule κ) (s : Store κ) (doc : κ → Document) : Prop where
  covered : ∀ id, s.Covered id →
    (Checkout.checkoutAt id).run (repository rule) s = (.ok (doc id).written, s)
  uncovered : ∀ id, ¬s.Covered id →
    ∃ text, (Checkout.checkoutAt id).run (repository rule) s = (.error (.notFound text), s)
  head : (∃ x ∈ s.activeHeads, s.Covered x) → ∃ x ∈ s.activeHeads, ∃ c,
    s.commits.get? x = some c ∧
      Node.checkout.run (repository rule) s = (.ok ⟨x, c.level, (doc x).written⟩, s)
  headless : (∀ x ∈ s.activeHeads, ¬s.Covered x) →
    ∃ text, Node.checkout.run (repository rule) s = (.error (.notFound text), s)

theorem Rebuilds.checksOut (rule : IdRule κ) (hs : s.Rebuilds doc) : ChecksOut rule s doc := by
  constructor
  · exact fun id h => hs.checkoutAt_of_covered rule h
  · intro id h
    rw [hs.checkoutAt_of_not_covered rule h, absence]
    split <;> exact ⟨_, rfl⟩
  · rintro ⟨x, hx, hcovered⟩
    rcases (hs.ensures_checkout rule).run with
      ⟨⟨y, n, l⟩, _, hrun, ⟨-, hy, ⟨c, hc, hn⟩, hl⟩, rfl⟩ | ⟨_, _, -, ⟨hnone, -⟩, -⟩
    · obtain rfl : n = c.level := hn
      obtain rfl : l = (doc y).written := hl
      exact ⟨y, hy, c, hc, hrun⟩
    · exact absurd hcovered (hnone x hx)
  · intro hnone
    rcases (hs.ensures_checkout rule).run with
      ⟨_, _, -, ⟨⟨x, hx, hcovered⟩, -⟩, -⟩ | ⟨_, _, hrun, ⟨-, rfl⟩, rfl⟩
    · exact absurd hcovered (hnone x hx)
    · exact ⟨_, hrun⟩

theorem Rebuilds.refreshed (rule : IdRule κ) (hs : s.Rebuilds doc) (id : κ) :
    Refreshed s.commits doc s ((Checkout.saveSnapshot id).run (repository rule) s).2 := by
  rcases hs.saveSnapshot rule id with ⟨hcovered, ht⟩ | ht
  · rw [ht]
    refine ⟨rfl, rfl, fun x l hl => ?_, fun x l hl => ?_⟩
    · rw [OrdMap.get?_insert]
      split
      next => exact ⟨_, rfl⟩
      next => exact ⟨l, hl⟩
    · rw [OrdMap.get?_insert] at hl
      split at hl
      next hx =>
        cases hl
        rw [hx]
        exact .inr ⟨hcovered, hs.stored_of_covered hcovered, rfl⟩
      next => exact .inl hl
  · rw [ht]
    exact ⟨rfl, rfl, fun x l hl => ⟨l, hl⟩, fun x l hl => .inl hl⟩

/-- Where documents can be rebuilt, checkouts end as the snapshots below say and answer with what
writes the document. Saving a snapshot, whether it succeeds or not, leaves a store from which the
same documents can be rebuilt, and after any further requests every commit is checked out as it
would be if the snapshot had not been saved. -/
theorem Rebuilds.checkouts (rule : IdRule κ) (hs : s.Rebuilds doc) :
    ChecksOut rule s doc ∧ ∀ id,
      ((Checkout.saveSnapshot id).run (repository rule) s).2.Rebuilds doc ∧
      ∀ later doc', (after rule later s).Rebuilds doc' →
        (after rule later ((Checkout.saveSnapshot id).run (repository rule) s).2).Rebuilds doc' ∧
        ∀ x, ((Checkout.checkoutAt x).run (repository rule)
            (after rule later ((Checkout.saveSnapshot id).run (repository rule) s).2)).1 =
          ((Checkout.checkoutAt x).run (repository rule) (after rule later s)).1 := by
  refine ⟨hs.checksOut rule, fun id => ?_⟩
  have hsaved := hs.refreshed rule id
  generalize ((Checkout.saveSnapshot id).run (repository rule) s).2 = t at hsaved
  refine ⟨hsaved.rebuilds hs fun _ _ _ => rfl, fun later doc' hlater => ?_⟩
  have hafter : Refreshed s.commits doc (after rule later s) (after rule later t) :=
    hsaved.after later
  have ht : (after rule later t).Rebuilds doc' := hafter.rebuilds hlater fun id c hc =>
    hs.agrees hlater (history_extends_after rule later s) hc
  refine ⟨ht, fun x => ?_⟩
  by_cases hx : (after rule later s).Covered x
  · rw [hlater.checkoutAt_of_covered rule hx,
      ht.checkoutAt_of_covered rule (hafter.covered_iff.2 hx)]
  · rw [hlater.checkoutAt_of_not_covered rule hx,
      ht.checkoutAt_of_not_covered rule fun h => hx (hafter.covered_iff.1 h), absence, absence,
      hafter.commits]

def kept : Store UInt64 where
  commits := ((∅ : History UInt64).insert 1 ⟨1, ∅, 1, 0, none⟩).insert 2
    ⟨2, .single 1 [Document.edit ∅ "k" (some "v")], 2, 0, none⟩
  heads := .single 2
  snapshots := .single 1 []

def keptDocument : UInt64 → Document :=
  Function.update (Function.update (fun _ => ∅) 1 ∅) 2
    (Document.applyAll ∅ [Document.edit ∅ "k" (some "v")])

theorem sound_kept : Sound kept.commits keptDocument := by
  have hroot : Sound ((∅ : History UInt64).insert 1 ⟨1, ∅, 1, 0, none⟩)
      (Function.update (fun _ => ∅) 1 ∅) :=
    (sound_empty fun _ => ∅).insert_root ⟨1, ∅, 1, 0, none⟩ ∅ rfl rfl
  exact hroot.insert_child ⟨2, .single 1 [Document.edit ∅ "k" (some "v")], 2, 0, none⟩ rfl rfl rfl
    (by decide) (Document.Leads.edit ∅ "k" (some "v")).anchors

theorem cases_kept {id : UInt64} {c : Commit UInt64} (hc : kept.commits.get? id = some c) :
    id = 1 ∧ c = ⟨1, ∅, 1, 0, none⟩ ∨
      id = 2 ∧ c = ⟨2, .single 1 [Document.edit ∅ "k" (some "v")], 2, 0, none⟩ := by
  simp only [kept, OrdMap.get?_insert] at hc
  split at hc
  next hid =>
    cases hc
    exact .inr ⟨hid, rfl⟩
  next =>
    split at hc
    next hid =>
      cases hc
      exact .inl ⟨hid, rfl⟩
    next => cases hc

theorem checkouts_kept : kept.Rebuilds keptDocument ∧
    ChecksOut (.sequential 2) kept keptDocument ∧ ∀ id,
      ((Checkout.saveSnapshot id).run (repository (.sequential 2)) kept).2.Rebuilds keptDocument ∧
      ∀ later doc', (after (.sequential 2) later kept).Rebuilds doc' →
        (after (.sequential 2) later
          ((Checkout.saveSnapshot id).run (repository (.sequential 2)) kept).2).Rebuilds doc' ∧
        ∀ x, ((Checkout.checkoutAt x).run (repository (.sequential 2)) (after (.sequential 2) later
            ((Checkout.saveSnapshot id).run (repository (.sequential 2)) kept).2)).1 =
          ((Checkout.checkoutAt x).run (repository (.sequential 2))
            (after (.sequential 2) later kept)).1 := by
  have hkept : kept.Rebuilds keptDocument := by
    refine ⟨sound_kept, fun {id c} hc hparents => ?_, fun {id l} hl => ?_, fun x hx => ?_⟩
    · rcases cases_kept hc with ⟨rfl, rfl⟩ | ⟨rfl, rfl⟩
      · rfl
      · cases hparents
    · simp only [kept, OrdMap.get?_single] at hl
      split at hl
      next hid =>
        cases hl
        rw [hid]
        exact ⟨⟨_, rfl⟩, .nil _⟩
      next => cases hl
    · rw [OrdSet.mem_single.1 hx]
      exact ⟨_, rfl⟩
  exact ⟨hkept, hkept.checkouts (.sequential 2)⟩

end Store

end Confluence
