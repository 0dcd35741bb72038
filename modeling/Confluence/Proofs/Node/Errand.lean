import Confluence.Proofs.Node.Fetch
import Confluence.Proofs.Repository.Merging

/-!
# Pushes that are repeated

A push that fails may have stored its commit, have stored a merge that no head knows, or have
changed the heads already. An errand is a push with what it would do if nothing failed: the tips of
the heads and the commit, and the plan of their merge. Whatever an attempt leaves behind, the store
is then under way: it holds nothing new but the commit and commits that are built from the plan,
and its heads are the ones from before or the result. Each attempt leads from such a store to such
a store, and one without faults ends on the result, so repeating a push has the effect of one push.
-/

namespace Confluence

open History Program

variable {κ : Type} [CommitId κ]

/-- A commit that is to be pushed to a store, and what comes of it: the documents of the history
with the commit, the tips of the heads and the commit, the plan of the merge if there are several,
and its document. Fewer ids than the limit are given meanwhile. -/
structure Errand (κ : Type) [CommitId κ] where
  rule : IdRule κ
  commit : Commit κ
  start : Store κ
  doc : κ → Document
  tips : OrdSet κ
  plan : Merge.Plan κ
  merged : Document
  limit : Nat

namespace Errand

def history (w : Errand κ) : History κ := w.start.commits.insertIfNew w.commit.id w.commit

def built (w : Errand κ) (serial : Nat) : Commit κ :=
  ⟨w.rule.assign serial w.plan.epoch w.plan.edges w.plan.level, w.plan.edges, w.plan.level,
    w.plan.epoch, none⟩

/-- A commit is the planned merge, up to its id and timestamp. -/
structure AsPlanned (w : Errand κ) (b : Commit κ) : Prop where
  parents : b.parents = w.plan.edges
  level : b.level = w.plan.level
  epoch : b.epoch = w.plan.epoch

def document (w : Errand κ) (id : κ) : Document :=
  if w.history.contains id then w.doc id else w.merged

structure Valid (w : Errand κ) : Prop where
  sound : w.history.Sound w.doc
  commit : ∃ b, w.history.get? w.commit.id = some b ∧ b.sameContent w.commit = true
  heads : ∀ x ∈ w.start.heads, ∃ c, w.history.get? x = some c
  epoch : ∃ e, ∀ id c, w.history.get? id = some c → c.epoch = e
  tips : ∀ x, x ∈ w.tips ↔ w.history.IsTip (w.start.heads.insert w.commit.id) x
  plan : 2 ≤ w.tips.size → Merge.Plans w.history w.tips w.plan
  merged : 2 ≤ w.tips.size →
    ∀ x edge, w.plan.edges.get? x = some edge → Document.Leads (w.doc x) edge w.merged
  /-- The id of a merge is free, or it belongs to that merge. -/
  spares : 2 ≤ w.tips.size → ∀ i b, w.start.serial ≤ i → i < w.limit →
    w.history.get? (w.built i).id = some b → w.AsPlanned b

def Result (w : Errand κ) (u : Store κ) (m : κ) : Prop :=
  w.tips = .single m ∨ 2 ≤ w.tips.size ∧
    ∃ i b, m = (w.built i).id ∧ u.commits.get? m = some b ∧ w.AsPlanned b

/-- A store in which the commit has been stored and nothing else but merges of the tips. -/
structure Underway (w : Errand κ) (u : Store κ) : Prop where
  history : Extends w.history u.commits
  others : ∀ {id b}, u.commits.get? id = some b → w.history.get? id = some b ∨
    2 ≤ w.tips.size ∧ ∃ i, id = (w.built i).id ∧ b = w.built i
  heads : u.heads = w.start.heads ∨ ∃ m, w.Result u m ∧ u.heads = .single m
  serial : w.start.serial ≤ u.serial

variable {w : Errand κ} {s t u : Store κ} {m x : κ} {b c : Commit κ}

theorem history_extends (w : Errand κ) : Extends w.start.commits w.history := fun _ _ hc =>
  OrdMap.get?_insertIfNew_eq_some_iff.2 (.inl hc)

theorem asPlanned_built (w : Errand κ) (i : Nat) : w.AsPlanned (w.built i) := ⟨rfl, rfl, rfl⟩

theorem document_of_stored (hc : w.history.get? x = some c) : w.document x = w.doc x :=
  if_pos (OrdMap.contains_iff.2 ⟨c, hc⟩)

theorem document_of_new (hx : w.history.get? x = none) : w.document x = w.merged := by
  refine if_neg ?_
  simp [OrdMap.contains, hx]

theorem Result.mono (hm : w.Result u m) (he : Extends u.commits t.commits) : w.Result t m := by
  rcases hm with hone | ⟨htwo, i, b, hid, hb, hplanned⟩
  · exact .inl hone
  · exact .inr ⟨htwo, i, b, hid, he m b hb, hplanned⟩

namespace Valid

theorem head_stored (hw : w.Valid) (hx : x ∈ w.start.heads.insert w.commit.id) :
    ∃ c, w.history.get? x = some c := by
  rcases OrdSet.mem_insert.1 hx with rfl | hx
  · exact hw.commit.imp fun b hb => hb.1
  · exact hw.heads x hx

theorem tip_stored (hw : w.Valid) (hx : x ∈ w.tips) : ∃ c, w.history.get? x = some c :=
  hw.head_stored ((hw.tips x).1 hx).1

theorem mem_tips_of_edge (hw : w.Valid) (htwo : 2 ≤ w.tips.size) {edge : List Operation}
    (he : w.plan.edges.get? x = some edge) : x ∈ w.tips :=
  ((hw.plan htwo).keys x).1 ⟨edge, he⟩

theorem parents_level (hw : w.Valid) (htwo : 2 ≤ w.tips.size) (hb : w.AsPlanned b) :
    ∀ p ∈ b.parentIds, ∃ q, w.history.get? p = some q ∧ q.level < b.level :=
  (hw.plan htwo).parents_level (fun _ hx => hw.tip_stored hx) hb.parents hb.level

end Valid

/-! ## Results -/

theorem Result.stored (hm : w.Result u m) (hw : w.Valid) (he : Extends w.history u.commits) :
    ∃ c, u.commits.get? m = some c := by
  rcases hm with hone | ⟨-, i, b, -, hb, -⟩
  · have hmem : m ∈ w.tips := hone ▸ OrdSet.mem_single.2 rfl
    exact (hw.tip_stored hmem).imp fun c hc => he m c hc
  · exact ⟨b, hb⟩

/-- The commit and the heads from before are below the result. -/
theorem Result.above (hm : w.Result u m) (hw : w.Valid) (he : Extends w.history u.commits)
    (hx : x ∈ w.start.heads.insert w.commit.id) : Ancestor u.commits x m := by
  obtain ⟨y, hy, hxy⟩ := hw.sound.toGraded.exists_tip (fun z hz => hw.head_stored hz) hx
  have hmem : y ∈ w.tips := (hw.tips y).2 hy
  rcases hm with hone | ⟨htwo, i, b, -, hb, hplanned⟩
  · rw [hone, OrdSet.mem_single] at hmem
    rw [← hmem]
    exact he.ancestor hxy
  · have hparent : y ∈ b.parentIds := by
      rw [Commit.parentIds, OrdMap.mem_keys, hplanned.parents]
      exact ((hw.plan htwo).keys y).2 hmem
    exact (he.ancestor hxy).trans ((isParent_iff hb).2 hparent).ancestor

/-! ## Stores under way -/

namespace Underway

theorem sound (hu : w.Underway u) (hw : w.Valid) : Sound u.commits w.document := by
  -- a commit is part of the history, or a merge beside it, with parents in the history
  have hcases {id : κ} {b : Commit κ} (hb : u.commits.get? id = some b) :
      w.history.get? id = some b ∨ w.history.get? id = none ∧ 2 ≤ w.tips.size ∧ id = b.id ∧
        w.AsPlanned b := by
    cases hold : w.history.get? id with
    | some c => exact .inl ((hu.history id c hold).symm.trans hb)
    | none =>
        rcases hu.others hb with hb | ⟨htwo, i, hid, rfl⟩
        · rw [hold] at hb
          cases hb
        · exact .inr ⟨rfl, htwo, hid, w.asPlanned_built i⟩
  refine ⟨⟨fun {id c} hc => ?_, fun {id c p edge} hc he => ?_⟩, fun {id c p edge} hc he => ?_⟩
  · rcases hcases hc with hc | ⟨-, -, hid, -⟩
    · exact hw.sound.filed hc
    · exact hid.symm
  · rcases hcases hc with hc | ⟨-, htwo, -, hplanned⟩
    · obtain ⟨q, hq, hlt⟩ := hw.sound.parent hc he
      exact ⟨q, hu.history p q hq, hlt⟩
    · obtain ⟨q, hq, hlt⟩ := hw.parents_level htwo hplanned p (OrdMap.mem_keys.2 ⟨edge, he⟩)
      exact ⟨q, hu.history p q hq, hlt⟩
  · rcases hcases hc with hc | ⟨hnew, htwo, -, hplanned⟩
    · obtain ⟨q, hq, -⟩ := hw.sound.parent hc he
      rw [document_of_stored hc, document_of_stored hq]
      exact hw.sound.leads hc he
    · rw [hplanned.parents] at he
      obtain ⟨q, hq⟩ := hw.tip_stored (hw.mem_tips_of_edge htwo he)
      rw [document_of_new hnew, document_of_stored hq]
      exact hw.merged htwo p edge he

theorem head_stored (hu : w.Underway u) (hw : w.Valid) (hx : x ∈ u.heads) :
    ∃ c, u.commits.get? x = some c := by
  rcases hu.heads with heq | ⟨m, hm, heq⟩
  · rw [heq] at hx
    exact (hw.heads x hx).imp fun c hc => hu.history x c hc
  · rw [heq, OrdSet.mem_single] at hx
    rw [hx]
    exact hm.stored hw hu.history

theorem commit_stored (hu : w.Underway u) (hw : w.Valid) :
    ∃ b, u.commits.get? w.commit.id = some b ∧ b.sameContent w.commit = true := by
  obtain ⟨b, hb, hsame⟩ := hw.commit
  exact ⟨b, hu.history _ b hb, hsame⟩

theorem epoch_eq (hu : w.Underway u) (hw : w.Valid) :
    ∃ e, ∀ id b, u.commits.get? id = some b → b.epoch = e := by
  obtain ⟨e, he⟩ := hw.epoch
  refine ⟨e, fun id b hb => ?_⟩
  rcases hu.others hb with hb | ⟨htwo, i, -, rfl⟩
  · exact he id b hb
  · obtain ⟨-, x, -, c, hc, hepoch⟩ := (hw.plan htwo).epoch
    exact hepoch.symm.trans (he x c hc)

theorem activeHeads (hu : w.Underway u) (hw : w.Valid) : u.activeHeads = u.heads := by
  obtain ⟨e, he⟩ := hu.epoch_eq hw
  exact Store.activeHeads_of_epoch fun x hx =>
    (hu.head_stored hw hx).imp fun c hc => ⟨hc, he x c hc⟩

/-- The tips of the heads and the commit are the tips of the errand, or the result once it is the
head. -/
theorem tips_cases (hu : w.Underway u) (hw : w.Valid) {tips : OrdSet κ}
    (htips : ∀ x, x ∈ tips ↔ IsTip u.commits (u.heads.insert w.commit.id) x) :
    u.heads = w.start.heads ∧ tips = w.tips ∨
      ∃ m, w.Result u m ∧ u.heads = .single m ∧ tips = .single m := by
  rcases hu.heads with heq | ⟨m, hm, heq⟩
  · refine .inl ⟨heq, OrdSet.ext fun x => ?_⟩
    rw [htips, heq, hw.tips, hu.history.isTip_iff hw.sound.toGraded fun x hx => hw.head_stored hx]
  · refine .inr ⟨m, hm, heq, OrdSet.ext fun x => ?_⟩
    have hg := (hu.sound hw).toGraded
    obtain ⟨b, hb⟩ := hm.stored hw hu.history
    have hcm : Ancestor u.commits w.commit.id m :=
      hm.above hw hu.history (OrdSet.mem_insert.2 (.inl rfl))
    have hirrefl : ¬ProperAncestor u.commits m m := fun h =>
      Nat.lt_irrefl _ (hg.proper_level h hb hb)
    rw [htips, heq, OrdSet.mem_single]
    constructor
    · rintro ⟨hx, htop⟩
      rcases OrdSet.mem_insert.1 hx with rfl | hx
      · rcases ancestor_iff_eq_or_proper.1 hcm with heq | hproper
        · exact heq
        · exact absurd hproper (htop m (OrdSet.mem_insert.2 (.inr (OrdSet.mem_single.2 rfl))))
      · exact OrdSet.mem_single.1 hx
    · rintro rfl
      refine ⟨OrdSet.mem_insert.2 (.inr (OrdSet.mem_single.2 rfl)), fun y hy hxy => ?_⟩
      rcases OrdSet.mem_insert.1 hy with rfl | hy
      · exact hirrefl (Relation.TransGen.trans_left hxy hcm)
      · rw [OrdSet.mem_single.1 hy] at hxy
        exact hirrefl hxy

/-! ## One attempt -/

/-- A push of a commit that is stored, or of a merge, leaves the store under way. -/
theorem of_pushed (hu : w.Underway u) {n : Nat} (hp : Store.Pushed { u with serial := n } [c] t)
    (hserial : u.serial ≤ n)
    (hc : (∃ b, u.commits.get? c.id = some b) ∨ 2 ≤ w.tips.size ∧ ∃ i, c = w.built i) :
    w.Underway t := by
  refine ⟨hu.history.trans hp.history_extends, fun {id b} hb => ?_, ?_, ?_⟩
  · rw [hp.commits_singleton] at hb
    rcases OrdMap.get?_insertIfNew_eq_some_iff.1 hb with hold | ⟨hnew, hid, hbc⟩
    · exact hu.others hold
    · rcases hc with ⟨d, hd⟩ | ⟨htwo, i, hi⟩
      · rw [← hid, hnew] at hd
        cases hd
      · exact .inr ⟨htwo, i, by rw [hid, hi], hbc.trans hi⟩
  · rw [hp.heads]
    exact hu.heads.imp_right fun ⟨m, hm, heq⟩ => ⟨m, hm.mono hp.history_extends, heq⟩
  · rw [hp.serial]
    exact Nat.le_trans hu.serial hserial

/-- The merge can be stored under the next id. -/
theorem exists_built (hu : w.Underway u) (hw : w.Valid) (htwo : 2 ≤ w.tips.size)
    (hserial : u.serial < w.limit) (hc : c = w.built u.serial) :
    ∃ t, Store.push { u with serial := u.serial + 1 } [c] = (.ok (), t) ∧ w.Underway t ∧
      w.Result t c.id ∧ t.heads = u.heads := by
  have hplanned : w.AsPlanned c := hc ▸ w.asPlanned_built _
  have hsame : ∀ d, u.commits.get? c.id = some d → w.AsPlanned d ∧ d.sameContent c = true := by
    intro d hd
    have hid : d.id = c.id := (hu.sound hw).filed hd
    have hdplanned : w.AsPlanned d := by
      rcases hu.others hd with hd | ⟨-, i, -, rfl⟩
      · rw [hc] at hd
        exact hw.spares htwo u.serial d hu.serial hserial hd
      · exact w.asPlanned_built i
    refine ⟨hdplanned, ?_⟩
    simp [Commit.sameContent, hid, hdplanned.parents, hdplanned.level, hdplanned.epoch,
      hplanned.parents, hplanned.level, hplanned.epoch]
  have hparents : ∀ p ∈ c.parentIds, ∃ q, u.commits.get? p = some q ∧ q.level < c.level := by
    intro p hp
    obtain ⟨q, hq, hlt⟩ := hw.parents_level htwo hplanned p hp
    exact ⟨q, hu.history p q hq, hlt⟩
  obtain ⟨t, ht, hpushed⟩ :=
    Store.push_singleton (s := { u with serial := u.serial + 1 }) (fun d hd => (hsame d hd).2)
      hparents
  have hresult : ∃ b, t.commits.get? c.id = some b ∧ w.AsPlanned b := by
    rw [hpushed.get?_singleton]
    cases hold : u.commits.get? c.id with
    | some d => exact ⟨d, rfl, (hsame d hold).1⟩
    | none => exact ⟨c, if_pos rfl, hplanned⟩
  obtain ⟨b, hb, hbplanned⟩ := hresult
  exact ⟨t, ht, hu.of_pushed hpushed (Nat.le_succ _) (.inr ⟨htwo, _, hc⟩),
    .inr ⟨htwo, u.serial, b, by rw [hc], hb, hbplanned⟩, hpushed.heads⟩

end Underway

/-- The commit can be stored, whether it has been stored before or not. -/
theorem Valid.exists_pushed (hw : w.Valid) (hu : u = w.start ∨ w.Underway u) :
    ∃ t, u.push [w.commit] = (.ok (), t) ∧ w.Underway t ∧ t.serial = u.serial ∧
      t.heads = u.heads := by
  obtain ⟨b, hb, hsame⟩ := hw.commit
  have hcontent : b.parents = w.commit.parents ∧ b.level = w.commit.level := by
    simp only [Commit.sameContent, Bool.and_eq_true, decide_eq_true_eq] at hsame
    exact ⟨hsame.2, hsame.1.1.2⟩
  have hparents : ∀ p ∈ w.commit.parentIds,
      ∃ q, w.history.get? p = some q ∧ q.level < w.commit.level := by
    intro p hp
    rw [Commit.parentIds, OrdMap.mem_keys, ← hcontent.1] at hp
    obtain ⟨edge, he⟩ := hp
    rw [← hcontent.2]
    exact hw.sound.parent hb he
  rcases hu with rfl | hu
  · have hold : ∀ d, w.start.commits.get? w.commit.id = some d →
        d.sameContent w.commit = true := by
      intro d hd
      cases hb.symm.trans (w.history_extends _ d hd)
      exact hsame
    obtain ⟨t, ht, hpushed⟩ := Store.push_singleton hold fun p hp => by
      obtain ⟨q, hq, hlt⟩ := hparents p hp
      rcases OrdMap.get?_insertIfNew_eq_some_iff.1 hq with hq | ⟨-, -, rfl⟩
      · exact ⟨q, hq, hlt⟩
      · -- the commit is not its own parent
        exact absurd hlt (Nat.lt_irrefl _)
    have hcommits : t.commits = w.history := hpushed.commits_singleton
    refine ⟨t, ht, ⟨?_, fun {id c} hc => ?_, .inl hpushed.heads, ?_⟩, hpushed.serial,
      hpushed.heads⟩
    · rw [hcommits]
      exact .refl _
    · rw [hcommits] at hc
      exact .inl hc
    · exact Nat.le_of_eq hpushed.serial.symm
  · have hold : ∀ d, u.commits.get? w.commit.id = some d → d.sameContent w.commit = true := by
      intro d hd
      cases (hu.history _ b hb).symm.trans hd
      exact hsame
    obtain ⟨t, ht, hpushed⟩ := Store.push_singleton hold fun p hp => by
      obtain ⟨q, hq, hlt⟩ := hparents p hp
      exact ⟨q, hu.history p q hq, hlt⟩
    exact ⟨t, ht, hu.of_pushed hpushed (Nat.le_refl _) (.inl ⟨b, hu.history _ b hb⟩),
      hpushed.serial, hpushed.heads⟩

namespace Underway

variable {fails : Fault → Prop}

theorem ensures_withoutAncestors (hu : w.Underway u) (hw : w.Valid) :
    (Tips.withoutAncestors (u.heads.insert w.commit.id)).Ensures
      (Store.environment w.rule fails fun _ => True)
      (fun tips t => (u.heads = w.start.heads ∧ tips = w.tips ∨
        ∃ m, w.Result u m ∧ u.heads = .single m ∧ tips = .single m) ∧ t = u)
      (fun e t => fails e ∧ t = u) u := by
  have hstored : ∀ x ∈ u.heads.insert w.commit.id, ∃ c, u.commits.get? x = some c := by
    intro x hx
    rcases OrdSet.mem_insert.1 hx with rfl | hx
    · exact (hu.commit_stored hw).imp fun b hb => hb.1
    · exact hu.head_stored hw hx
  have htips := Tips.reads_withoutAncestors (v := u.view fails) (hu.sound hw).toGraded hstored
    (fun tips htips => hu.tips_cases hw htips) fun _ he => he
  exact htips.ensures (Store.environment_serves u) rfl

/-- The tips are merged into the result, or are the result. -/
theorem ensures_merge (hu : w.Underway u) (hw : w.Valid) (hserial : u.serial < w.limit)
    {tips : OrdSet κ} (htips : u.heads = w.start.heads ∧ tips = w.tips ∨
      ∃ m, w.Result u m ∧ u.heads = .single m ∧ tips = .single m) :
    (Merge.merge tips).Ensures (Store.environment w.rule fails fun _ => True)
      (fun m t => w.Underway t ∧ w.Result t m ∧ t.heads = u.heads ∧
        ∀ x ∈ u.heads, Ancestor t.commits x m)
      (fun e t => fails e ∧ w.Underway t) u := by
  rcases htips with ⟨hheads, rfl⟩ | ⟨m, hm, hheads, rfl⟩
  · have habove {t : Store κ} {m : κ} (ht : w.Underway t) (hm : w.Result t m) :
        ∀ x ∈ u.heads, Ancestor t.commits x m := fun x hx =>
      hm.above hw ht.history (OrdSet.mem_insert.2 (.inr (hheads ▸ hx)))
    obtain ⟨y, hy⟩ : ∃ y, y ∈ w.tips := by
      obtain ⟨y, hy, -⟩ := hw.sound.toGraded.exists_tip (fun z hz => hw.head_stored hz)
        (OrdSet.mem_insert.2 (.inl rfl))
      exact ⟨y, (hw.tips y).2 hy⟩
    by_cases hsize : w.tips.size ≤ 1
    · have hone : w.tips = .single y := OrdSet.single_of_size_le_one hsize hy
      rw [hone, Merge.merge_single]
      exact ensures_pure ⟨hu, .inl hone, rfl, habove hu (.inl hone)⟩
    · have htwo : 2 ≤ w.tips.size := by omega
      have hstored : ∀ x ∈ w.tips, ∃ c, u.commits.get? x = some c := fun x hx =>
        (hw.tip_stored hx).imp fun c hc => hu.history x c hc
      have hcommon : ∃ a, ∀ x ∈ w.tips, Ancestor u.commits a x := by
        obtain ⟨a, ha, -⟩ := (hw.plan htwo).paths
        exact ⟨a.commit, fun x hx => hu.history.ancestor (ha.common x hx)⟩
      have hplan : (Merge.plan w.tips).Reads (u.view fails) (fun p => p = w.plan) fails :=
        Merge.reads_plan_sound (hu.sound hw) ⟨y, hy⟩ hstored
          (fun p hp => ((hw.plan htwo).unique (hu.sound hw) hw.sound.toGraded hu.history ⟨y, hy⟩
            (fun x hx => hw.tip_stored hx) hp).symm)
          (fun hnone => absurd hcommon hnone) fun _ he => he
      refine Merge.ensures_merge_of_plan htwo hplan ?_ fun e he => ⟨⟨he, hu⟩, he, ?_⟩
      · rintro p rfl - c hc
        obtain ⟨t, ht, hut, hresult, hsame⟩ := hu.exists_built hw htwo hserial hc
        exact ⟨t, ht, ⟨hut, hresult, hsame, habove hut hresult⟩, fun e he => ⟨he, hut⟩⟩
      · exact ⟨hu.history, hu.others, hu.heads, Nat.le_succ_of_le hu.serial⟩
  · rw [Merge.merge_single]
    refine ensures_pure ⟨hu, hm, rfl, fun x hx => ?_⟩
    rw [hheads, OrdSet.mem_single] at hx
    rw [hx]
    exact .refl m

theorem ensures_replace (hu : w.Underway u) (hw : w.Valid) (hm : w.Result u m) :
    (updateHeads (.single m) (u.heads.erase m)).Ensures
      (Store.environment w.rule fails fun _ => True)
      (fun _ t => w.Underway t ∧ w.Result t m ∧ t.heads = .single m ∧ t.commits = u.commits)
      (fun e t => fails e ∧ w.Underway t) u := by
  have hadded : ∀ x ∈ OrdSet.single m, ∃ c, u.commits.get? x = some c := by
    intro x hx
    rw [OrdSet.mem_single.1 hx]
    exact hm.stored hw hu.history
  refine ensures_updateHeads_of_stored hadded (fun t hmoved => ?_) fun e he => ⟨he, hu⟩
  have hheads : t.heads = .single m := by
    refine OrdSet.ext fun x => ?_
    rw [hmoved.heads, OrdSet.mem_erase, OrdSet.mem_single]
    tauto
  have he : Extends u.commits t.commits := by
    rw [hmoved.commits]
    exact .refl _
  refine ⟨⟨hu.history.trans he, fun {id b} hb => ?_, .inr ⟨m, hm.mono he, hheads⟩, ?_⟩,
    hm.mono he, hheads, hmoved.commits⟩
  · rw [hmoved.commits] at hb
    exact hu.others hb
  · rw [hmoved.serial]
    exact hu.serial

theorem ensures_fetchFrom (hu : w.Underway u) (hw : w.Valid) (hm : w.Result u m) :
    (Node.fetchFrom (.single m) w.commit.id).Ensures (Store.environment w.rule fails fun _ => True)
      (fun f t => Node.Reaches u.commits w.document (.single m) w.commit.id f ∧ t = u)
      (fun e t => fails e ∧ t = u) u := by
  have hstored : ∀ x ∈ OrdSet.single m, ∃ c, u.commits.get? x = some c := by
    intro x hx
    rw [OrdSet.mem_single.1 hx]
    exact hm.stored hw hu.history
  have hbelow : Ancestor u.commits w.commit.id m :=
    hm.above hw hu.history (OrdSet.mem_insert.2 (.inl rfl))
  have hfetch : (Node.fetchFrom (.single m) w.commit.id).Reads (u.view fails)
      (Node.Reaches u.commits w.document (.single m) w.commit.id) fails :=
    Node.reads_fetchFrom (hu.sound hw) hstored ⟨m, OrdSet.mem_single.2 rfl, hbelow⟩
      (fun _ hf => hf) fun _ he => he
  exact hfetch.ensures (Store.environment_serves u) rfl

end Underway

/-- How an attempt that is not cut short ends: the result is the only head, above all heads from
before, and the answer leads to it from the commit. -/
structure Done (w : Errand κ) (s : Store κ) (f : Fetched κ) (u : Store κ) : Prop where
  underway : w.Underway u
  result : w.Result u f.commit
  heads : u.heads = .single f.commit
  above : ∀ x ∈ s.heads, Ancestor u.commits x f.commit
  reaches : Node.Reaches u.commits w.document (.single f.commit) w.commit.id f

/-- An attempt to push leaves the store under way, wherever it fails. -/
theorem ensures_push {fails : Fault → Prop} (hw : w.Valid) (hs : s = w.start ∨ w.Underway s)
    (hserial : s.serial < w.limit) :
    (Node.push w.commit).Ensures (Store.environment w.rule fails fun _ => True) (w.Done s)
      (fun e u => fails e ∧ (u = w.start ∨ w.Underway u)) s := by
  obtain ⟨t, ht, hut, htserial, htheads⟩ := hw.exists_pushed hs
  apply Ensures.bind
  refine Program.ensures_push ht ?_ fun e he => ⟨⟨he, hs⟩, he, .inr hut⟩
  apply Ensures.bind
  refine ensures_activeHeads ?_ fun e he => ⟨he, .inr hut⟩
  rw [hut.activeHeads hw]
  apply Ensures.bind
  refine (hut.ensures_withoutAncestors hw).mono ?_ fun e u he => ⟨he.1, .inr (he.2 ▸ hut)⟩
  rintro tips t' ⟨htips, rfl⟩
  apply Ensures.bind
  refine (hut.ensures_merge hw (htserial ▸ hserial) htips).mono ?_
    fun e u he => ⟨he.1, .inr he.2⟩
  rintro m u ⟨huu, hm, huheads, habove⟩
  apply Ensures.bind
  rw [← huheads]
  refine (huu.ensures_replace hw hm).mono ?_ fun e v he => ⟨he.1, .inr he.2⟩
  rintro _ v ⟨hvv, hvm, hvheads, hvcommits⟩
  refine (hvv.ensures_fetchFrom hw hvm).mono ?_ fun e v' he => ⟨he.1, .inr (he.2 ▸ hvv)⟩
  rintro f v' ⟨hf, rfl⟩
  have hfm : f.commit = m := OrdSet.mem_single.1 hf.mem
  subst hfm
  refine ⟨hvv, hvm, hvheads, fun x hx => ?_, hf⟩
  rw [hvcommits]
  exact habove x (htheads ▸ hx)

end Errand

end Confluence
