import Confluence.Proofs.Concurrency.Publish
import Confluence.Proofs.Concurrency.Shared

/-!
# What calls come to while others work

A writer builds commits that fit, and leads to a commit that is covered when it ends. A reader never
fails: what it starts from is below a head, and stays so, and the heads that it reads last are all
active, so the search from them meets its start. What it returns leads from the document it started
from to the document of one of these heads.
-/

namespace Confluence.Shared

open History Program Store

variable {κ : Type} [CommitId κ] {α β : Type} {rule : IdRule κ} {root : κ} {epoch : Nat}
  {s t u : Store κ} {h : OrdSet κ}

/-! ## Commits that fit -/

theorem fits_of_single {p : κ} {q c : Commit κ} {edge : List Operation} {d : Document}
    (hq : s.commits.get? p = some q) (hc : c.parents = .single p edge) (hlt : q.level < c.level)
    (hepoch : c.epoch = epoch) (hd : Replays s.commits p d) (ha : d.Anchors edge) :
    s.Fits epoch c where
  epoch := hepoch
  continues := by
    intro hempty
    have hget : c.parents.get? p = some edge := by rw [hc, OrdMap.get?_single, if_pos rfl]
    rw [hempty] at hget
    cases hget
  parents := by
    intro x hx
    rw [(mem_parentIds_single hc).1 hx]
    exact ⟨q, hq, hlt⟩
  leads := by
    refine ⟨d.applyAll edge, fun x e he => ?_⟩
    rw [hc, OrdMap.get?_single] at he
    split at he
    next hx =>
      cases he
      rw [hx]
      exact ⟨d, hd, .of_anchors ha⟩
    next => cases he

theorem fits_of_plans {heads : OrdSet κ} {p : Merge.Plan κ} {c : Commit κ}
    (hs : s.Tended root epoch) (hp : Merge.Plans s.commits heads p)
    (hheads : ∀ x ∈ heads, ∃ c, s.commits.get? x = some c) (hedges : c.parents = p.edges)
    (hlevel : c.level = p.level) (hepoch : c.epoch = p.epoch) : s.Fits epoch c := by
  obtain ⟨doc, hdoc⟩ := hs.documents
  obtain ⟨d, hd⟩ := hp.isMerge hdoc.toSound hedges hlevel hepoch
  obtain ⟨-, x, hx, b, hb, hxepoch⟩ := hp.epoch
  refine ⟨?_, ?_, hp.parents_level hheads hedges hlevel, d, fun y e he => ?_⟩
  · rw [hepoch, ← hxepoch]
    exact hs.epochs x b hb
  · intro hempty
    obtain ⟨e, he⟩ := (hp.keys x).2 hx
    rw [← hedges, hempty] at he
    cases he
  · have hy : y ∈ heads := (hd.parents y).1 (OrdMap.mem_keys.2 ⟨e, he⟩)
    obtain ⟨b, hb⟩ := hheads y hy
    exact ⟨doc y, hdoc.replays hb, hd.edges y e he⟩

/-! ## Writers -/

theorem ensures_createCommit {parent : κ} {diffs : List Operation} {level : Nat} {d : Document}
    (hs : s.Tended root epoch) (hd : Replays s.commits parent d) (ha : d.Anchors diffs) :
    (Node.createCommit parent diffs level).Ensures (environment rule root epoch)
      (fun c st => st.1.Fits epoch c) (fun _ _ => True) (s, h) := by
  obtain ⟨p, hp⟩ := hd.stored
  have hload : (loadCommit parent).Reads (s.view fun _ => False) (· = p) fun _ => False :=
    reads_loadCommit hp rfl fun _ he => he
  refine ensures_bind_reads hs hload (fun _ _ _ => trivial) fun c t hc ht => ?_
  subst hc
  split
  next => exact trivial
  next hlevel =>
    refine ensures_ask trivial ?_ fun _ _ _ => trivial
    rintro b ⟨t', h'⟩ ⟨u, hu, hb, -⟩
    cases hb
    have hext := (ht.trans hu).history
    exact fits_of_single (hext parent c hp) rfl (Nat.lt_of_not_le hlevel)
      (hs.epochs parent c hp) (hd.grow hext) ha

theorem isParent_of_push {c : Commit κ} (hp : s.Pushed [c] t) {x : κ} (hx : x ∈ c.parentIds) :
    IsParent t.commits x c.id :=
  Guard.isParent_of_pushed hp (by simp) List.mem_cons_self hx

theorem stored_of_push {c : Commit κ} (hp : s.Pushed [c] t) :
    ∃ d, t.commits.get? c.id = some d :=
  Guard.stored_of_pushed hp (by simp) List.mem_cons_self

section

variable {Q : β → Store κ × OrdSet κ → Prop}

theorem ensures_bind_push {c : Commit κ} {f : Unit → Program κ β} (hc : s.Fits epoch c)
    (hf : ∀ u t, s.Onward root epoch u → u.Onward root epoch t → u.Pushed [c] t →
      (f ()).Ensures (environment rule root epoch) Q (fun _ _ => True) (t, h)) :
    (pushCommit c >>= f).Ensures (environment rule root epoch) Q (fun _ _ => True) (s, h) :=
  ensures_bind_ask ⟨c, rfl, hc⟩ (fun _ _ _ _ => trivial) fun u t _ hu ht ha =>
    hf u t hu ht (push_eq_ok_iff.1 ha)

theorem ensures_bind_merge {heads : OrdSet κ} {f : κ → Program κ β} (hs : s.Tended root epoch)
    (hheads : ∀ x ∈ heads, ∃ c, s.commits.get? x = some c) (hne : ∃ x, x ∈ heads)
    (hf : ∀ m t, s.Onward root epoch t → (∃ c, t.commits.get? m = some c) →
      (∀ x ∈ heads, Ancestor t.commits x m) →
      (f m).Ensures (environment rule root epoch) Q (fun _ _ => True) (t, h)) :
    (Merge.merge heads >>= f).Ensures (environment rule root epoch) Q (fun _ _ => True)
      (s, h) := by
  by_cases htwo : 2 ≤ heads.size
  · rw [Merge.merge_eq_plan htwo]
    simp only [bind_assoc, pure_bind]
    have hplan : (Merge.plan heads).Reads (s.view fun _ => False) (Merge.Plans s.commits heads)
        fun _ => True :=
      Merge.reads_plan hs.ready.graded hne hheads (fun p hp => hp) (fun _ => trivial)
        (fun _ _ _ _ _ => trivial) fun _ _ => trivial
    refine ensures_bind_reads hs hplan (fun _ _ _ => trivial) fun p t hp ht => ?_
    refine ensures_bind_ask trivial (fun _ _ _ _ => trivial) fun u v c hu hv hc => ?_
    have hsv := (ht.trans hu).trans hv
    have hfits : s.Fits epoch c := by
      cases hc
      exact fits_of_plans hs hp hheads rfl rfl rfl
    have hedges : c.parents = p.edges := by
      cases hc
      rfl
    refine ensures_bind_push (hfits.grow hsv.history) fun w z hw hz hpushed => ?_
    refine hf c.id z ((hsv.trans hw).trans hz) (stored_of_push hpushed) fun x hx => ?_
    have hxc : x ∈ c.parentIds := by
      rw [Commit.parentIds, OrdMap.mem_keys, hedges, hp.keys]
      exact hx
    exact (isParent_of_push hpushed hxc).ancestor
  · obtain ⟨x, hx⟩ := hne
    have hone : heads = .single x := OrdSet.single_of_size_le_one (by omega) hx
    rw [hone, Merge.merge_single, pure_bind]
    refine hf x s hs.onward (hheads x hx) fun y hy => ?_
    rw [hone, OrdSet.mem_single] at hy
    exact hy ▸ .refl y

/-- What is left of some members without those below others is merged, and the merge takes the place
of the heads among them. -/
theorem ensures_replace {members heads : OrdSet κ} {f : κ → Program κ β}
    (hs : s.Tended root epoch) (hne : ∃ x, x ∈ members)
    (hmembers : ∀ x ∈ members, ∃ c, s.commits.get? x = some c) (hheads : ∀ x ∈ heads, x ∈ members)
    (hf : ∀ m t, s.Onward root epoch t → m ∈ t.heads → (∀ x ∈ members, Ancestor t.commits x m) →
      (f m).Ensures (environment rule root epoch) Q (fun _ _ => True) (t, h)) :
    (do
      let tips ← Tips.withoutAncestors members
      let m ← Merge.merge tips
      updateHeads (.single m) (heads.erase m)
      f m : Program κ β).Ensures (environment rule root epoch) Q (fun _ _ => True) (s, h) := by
  have htips : (Tips.withoutAncestors members).Reads (s.view fun _ => False)
      (fun tips => ∀ x, x ∈ tips ↔ IsTip s.commits members x) fun _ => True :=
    Tips.reads_withoutAncestors hs.ready.graded hmembers (fun tips h => h) fun _ _ => trivial
  refine ensures_bind_reads hs htips (fun _ _ _ => trivial) fun tips t htips ht => ?_
  have hstored : ∀ x ∈ tips, ∃ c, t.commits.get? x = some c := by
    intro x hx
    obtain ⟨c, hc⟩ := hmembers x ((htips x).1 hx).1
    exact ⟨c, ht.history x c hc⟩
  have hsome : ∃ x, x ∈ tips := by
    obtain ⟨x, hx⟩ := hne
    obtain ⟨y, hy, -⟩ := hs.ready.graded.exists_tip hmembers hx
    exact ⟨y, (htips y).2 hy⟩
  refine ensures_bind_merge ht.tended hstored hsome fun m u hu hm habove => ?_
  have hbelow : ∀ x ∈ members, Ancestor u.commits x m := by
    intro x hx
    obtain ⟨y, hy, hxy⟩ := hs.ready.graded.exists_tip hmembers hx
    exact ((ht.trans hu).history.ancestor hxy).trans (habove y ((htips y).2 hy))
  refine ensures_bind_ask (fun x hx => ?_) (fun _ _ _ _ => trivial) fun v w _ hv hw ha => ?_
  · exact ⟨m, OrdSet.mem_single.2 rfl, hbelow x (hheads x (OrdSet.mem_erase.1 hx).1)⟩
  · have hsw := ((ht.trans hu).trans hv).trans hw
    refine hf m w hsw ?_ fun x hx => (hv.trans hw).history.ancestor (hbelow x hx)
    have hmoved := updateHeads_eq_ok ha
    exact (hmoved.heads m).2 (.inl (OrdSet.mem_single.2 rfl))

end

theorem eq_of_activeHeads {heads : OrdSet κ}
    (ha : s.answer rule .activeHeads = (.ok heads, t)) : heads = s.activeHeads ∧ t = s := by
  cases ha
  exact ⟨rfl, rfl⟩

/-- A push that ends leads to a commit that is covered. -/
theorem ensures_push {c : Commit κ} (hc : s.Fits epoch c) :
    (Node.push c).Ensures (environment rule root epoch) (fun f st => st.1.Covers f.commit)
      (fun _ _ => True) (s, h) := by
  refine ensures_bind_push hc fun _ t _ _ hpushed => ?_
  refine ensures_bind_ask trivial (fun _ _ _ _ => trivial) fun u v heads hu _ ha => ?_
  obtain ⟨rfl, rfl⟩ := eq_of_activeHeads ha
  obtain ⟨d, hd⟩ := stored_of_push hpushed
  have hmembers : ∀ x ∈ v.activeHeads.insert c.id, ∃ b, v.commits.get? x = some b := by
    intro x hx
    rcases OrdSet.mem_insert.1 hx with rfl | hx
    · exact ⟨d, hu.history _ d hd⟩
    · exact hu.tended.heads x (activeHeads_subset hx)
  refine ensures_replace hu.tended ⟨c.id, OrdSet.mem_insert.2 (.inl rfl)⟩ hmembers
    (fun x hx => OrdSet.mem_insert.2 (.inr hx)) fun m w hw hm hbelow => ?_
  obtain ⟨doc, hdoc⟩ := hw.tended.documents
  have hfetch : (Node.fetchFrom (.single m) c.id).Reads (w.view fun _ => False)
      (fun f => f.commit = m) fun _ => False := by
    refine Node.reads_fetchFrom hdoc.toSound (fun x hx => ?_) ⟨m, OrdSet.mem_single.2 rfl, ?_⟩
      (fun f hf => OrdSet.mem_single.1 hf.mem) fun _ he => he
    · rw [OrdSet.mem_single.1 hx]
      exact hw.tended.heads m hm
    · exact hbelow c.id (OrdSet.mem_insert.2 (.inl rfl))
  refine (hfetch.ensures (environment_serves w _) ⟨hw.tended.onward, rfl⟩).mono ?_
    fun _ _ _ => trivial
  rintro f ⟨z, h'⟩ ⟨rfl, hz, -⟩
  exact hz.covers _ ⟨_, hm, .refl _⟩

theorem ensures_mergeHeads :
    Merge.mergeHeads.Ensures (environment rule root epoch) (fun _ _ => True) (fun _ _ => True)
      (s, h) := by
  refine ensures_bind_ask trivial (fun _ _ _ _ => trivial) fun u v heads hu _ ha => ?_
  obtain ⟨rfl, rfl⟩ := eq_of_activeHeads ha
  have hne : ∃ x, x ∈ v.activeHeads := by
    rw [hu.tended.activeHeads]
    exact hu.tended.exists_head
  exact ensures_replace hu.tended hne (fun x hx => hu.tended.heads x (activeHeads_subset hx))
    (fun x hx => hx) fun _ _ _ _ _ => trivial

/-! ## Readers -/

/-- What a reader has come to: a commit among the heads that it has read last, which is covered, and
operations that lead from a document to the commit's. -/
structure Lands (s : Store κ) (read : OrdSet κ) (start : Document) (f : Fetched κ) : Prop where
  mem : f.commit ∈ read
  covers : s.Covers f.commit
  leads : ∃ d, Replays s.commits f.commit d ∧ Document.Leads start f.diffs d

theorem ensures_fetch {current : κ} {d : Document} (hcovers : s.Covers current)
    (hd : Replays s.commits current d) :
    (Node.fetch current).Ensures (environment rule root epoch)
      (fun f st => Lands st.1 st.2 d f ∧ Replays st.1.commits current d) (fun _ _ => False)
      (s, h) := by
  refine ensures_bind_ask trivial (fun _ _ _ he => by cases he) fun u v heads hu _ ha => ?_
  obtain ⟨rfl, rfl⟩ := eq_of_activeHeads ha
  obtain ⟨doc, hdoc⟩ := hu.tended.documents
  have hstored : ∀ x ∈ v.activeHeads, ∃ c, v.commits.get? x = some c := fun x hx =>
    hu.tended.heads x (activeHeads_subset hx)
  have hbelow : ∃ x ∈ v.activeHeads, Ancestor v.commits current x := by
    rw [hu.tended.activeHeads]
    exact hu.covers current hcovers
  have hfetch : (Node.fetchFrom v.activeHeads current).Reads (v.view fun _ => False)
      (Node.Reaches v.commits doc v.activeHeads current) fun _ => False :=
    Node.reads_fetchFrom hdoc.toSound hstored hbelow (fun _ hf => hf) fun _ he => he
  refine (hfetch.ensures (environment_serves v v.activeHeads) ⟨hu.tended.onward, rfl⟩).mono ?_
    fun _ _ he => he.1
  rintro f ⟨w, h'⟩ ⟨hf, hw, rfl⟩
  obtain ⟨c, hc, -⟩ := hf.level
  have hstart : d = doc current :=
    hdoc.eq_of_replays (hd.grow hu.history)
  have hcovers : w.Covers f.commit := hw.covers _ ⟨_, activeHeads_subset hf.mem, .refl _⟩
  refine ⟨⟨hf.mem, hcovers, doc f.commit, ?_, ?_⟩, hd.grow (hu.trans hw).history⟩
  · exact (hdoc.replays hc).grow hw.history
  · rw [hstart]
    exact hf.leads

/-- The root has a snapshot and is below a head, so a snapshot is found, and the head under which it
was found stays covered. -/
theorem ensures_checkout :
    (Node.checkout : Program κ (Fetched κ)).Ensures (environment rule root epoch)
      (fun f st => Lands st.1 st.2 ∅ f) (fun _ _ => False) (s, h) := by
  refine ensures_bind_ask trivial (fun _ _ _ he => by cases he) fun u v heads hu _ ha => ?_
  obtain ⟨rfl, rfl⟩ := eq_of_activeHeads ha
  obtain ⟨doc, hdoc⟩ := hu.tended.documents
  have hstored : ∀ x ∈ v.activeHeads, ∃ c, v.commits.get? x = some c := fun x hx =>
    hu.tended.heads x (activeHeads_subset hx)
  refine ensures_bind_reads hu.tended (hdoc.reads_findSnapshot hstored) (fun e t he => ?_)
    fun found t hfound ht => ?_
  · obtain ⟨x, hx, hroot⟩ := hu.tended.covers
    obtain ⟨l, hl⟩ := hu.tended.snapshot
    rw [hu.tended.activeHeads] at he
    exact he.2 x hx ⟨root, l, hl, hroot⟩
  · obtain ⟨hmem, -, hleads⟩ := hfound
    obtain ⟨c, hc⟩ := hstored _ hmem
    have hreplays := hdoc.replays hc
    have hcovers : v.Covers found.path.child := ⟨_, activeHeads_subset hmem, .refl _⟩
    apply Ensures.bind
    refine (ensures_fetch (ht.covers _ hcovers) (hreplays.grow ht.history)).mono ?_
      fun _ _ he => he
    rintro f ⟨w, h'⟩ ⟨hf, -⟩
    obtain ⟨e, he, hlead⟩ := hf.leads
    exact ensures_pure ⟨hf.mem, hf.covers, e, he, (hleads.append hlead).squash⟩

end Confluence.Shared
