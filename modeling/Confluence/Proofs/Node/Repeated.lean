import Confluence.Proofs.Commit.Content
import Confluence.Proofs.Node.Errand
import Confluence.Proofs.Repository.Snapshots
import Confluence.Proofs.Repository.Stage

/-!
# Repeating a push

A client that is not told that its push has succeeded pushes again. Wherever the attempts before
have failed, a push that does not fail ends as a first push would have: on one head, above the
commit and all heads from before, with the document that a first push would have led to and the
operations that it would have answered with. Where ids are computed from contents it is the same
commit. All that attempts leave behind are further copies of the merge.
-/

namespace Confluence

open History Program

variable {κ : Type} [CommitId κ]

/-- The ids for the merge of the tips of some heads, from one number of given ids to another, are
free or belong to that merge. -/
def IdRule.Spares (rule : IdRule κ) (h : History κ) (heads : OrdSet κ) (first last : Nat) : Prop :=
  ∀ tips, (∀ x, x ∈ tips ↔ h.IsTip heads x) → ∀ i, first ≤ i → i < last → rule.Fits h tips i

/-- Where commits that share an id are the same, further ids spare a history that was built with
the ids before them. -/
theorem IdRule.Separates.spares {rule : IdRule κ} {h : History κ} {heads : OrdSet κ}
    {first last limit : Nat} (hrule : rule.Separates limit) (hlast : last ≤ limit)
    (hgiven : ∀ id b, h.get? id = some b → b.id = id ∧ rule.Gives 0 first b) :
    rule.Spares h heads first last := by
  intro tips _ i hfirst hi
  refine hrule.fits (Nat.lt_of_lt_of_le hi hlast) (fun id b hb => ?_) tips
  obtain ⟨hid, hb⟩ := hgiven id b hb
  exact ⟨hid, hb.mono (Nat.le_refl _) hfirst⟩

namespace Store

structure Uniform (s : Store κ) (doc : κ → Document) : Prop extends Sound s.commits doc where
  root : ∀ {a b ca cb}, s.commits.get? a = some ca → s.commits.get? b = some cb →
    ca.parents = ∅ → cb.parents = ∅ → a = b
  epoch : ∀ {a b ca cb}, s.commits.get? a = some ca → s.commits.get? b = some cb →
    ca.epoch = cb.epoch
  heads : ∀ x ∈ s.heads, ∃ c, s.commits.get? x = some c

/-- An attempt to push a commit: any request may fail without effect, and a push also after it has
taken effect. -/
def Tried (rule : IdRule κ) (c : Commit κ) (s t : Store κ) : Prop :=
  ∃ o, (Node.push c).Runs (environment rule (fun e => e.isTransient = true) fun _ => True) s o t

/-- What a push of a commit to a store `t` has led to, after attempts that began with `s`: one head,
which is above the commit and all heads from before, and an answer that leads there from the commit.
Nothing that was stored has changed, and what is new beside the commit are copies of the head. -/
structure Settled (c : Commit κ) (s t : Store κ) (doc : κ → Document) (f : Fetched κ)
    (u : Store κ) : Prop where
  sound : Sound u.commits doc
  heads : u.heads = .single f.commit
  activeHeads : u.activeHeads = .single f.commit
  stored : ∃ b, u.commits.get? c.id = some b ∧ b.sameContent c = true
  above : ∀ x, x = c.id ∨ x ∈ s.heads ∨ x ∈ t.heads → Ancestor u.commits x f.commit
  level : ∃ m, u.commits.get? f.commit = some m ∧ f.level = m.level
  leads : Document.Leads (doc c.id) f.diffs (doc f.commit)
  history : Extends s.commits t.commits ∧ Extends t.commits u.commits
  others : ∀ id b, u.commits.get? id = some b → s.commits.get? id = some b ∨ id = c.id ∨
    ∃ m, u.commits.get? f.commit = some m ∧ b.parents = m.parents ∧ b.level = m.level ∧
      b.epoch = m.epoch

theorem grown_of_attempts {rule : IdRule κ} {c : Commit κ} {s t : Store κ}
    (h : Relation.ReflTransGen (Tried rule c) s t) :
    s.serial ≤ t.serial ∧ Extends s.commits t.commits := by
  induction h with
  | refl => exact ⟨Nat.le_refl _, .refl _⟩
  | tail _ hlast ih =>
      obtain ⟨o, hruns⟩ := hlast
      exact ⟨Nat.le_trans ih.1 (serial_le_of_runs hruns),
        ih.2.trans (history_extends_of_runs hruns)⟩

end Store

namespace Errand

variable {w : Errand κ} {s t u u' : Store κ} {f f' : Fetched κ} {m m' : κ}

theorem Valid.underway_of_attempts (hw : w.Valid)
    (h : Relation.ReflTransGen (Store.Tried w.rule w.commit) w.start t)
    (hlimit : t.serial < w.limit) : t = w.start ∨ w.Underway t := by
  induction h with
  | refl => exact .inl rfl
  | tail _ hlast ih =>
      obtain ⟨o, hruns⟩ := hlast
      have hserial := Store.serial_le_of_runs hruns
      have hs := ih (Nat.lt_of_le_of_lt hserial hlimit)
      have hout := (ensures_push hw hs (Nat.lt_of_le_of_lt hserial hlimit)).of_runs hruns
      cases o with
      | ok f => exact .inr hout.underway
      | error e => exact hout.2

theorem Valid.exists_done (hw : w.Valid) (hs : s = w.start ∨ w.Underway s)
    (hserial : s.serial < w.limit) :
    ∃ f u, (Node.push w.commit).run (Store.repository w.rule) s = (.ok f, u) ∧ w.Done s f u := by
  rcases (ensures_push hw hs hserial).run with ⟨f, u, hrun, hdone⟩ | ⟨_, _, -, he, -⟩
  · exact ⟨f, u, hrun, hdone⟩
  · exact he.elim

theorem tips_ne_single (htwo : 2 ≤ w.tips.size) (m : κ) : w.tips ≠ .single m := by
  intro hone
  rw [hone] at htwo
  simp [OrdSet.size, OrdSet.single] at htwo

/-- Two results are one stored tip, or both are the planned merge. -/
theorem Result.cases (hm : w.Result u m) (hm' : w.Result u' m') (hw : w.Valid) :
    (m = m' ∧ ∃ c, w.history.get? m = some c) ∨ 2 ≤ w.tips.size ∧
      (∃ i b, m = (w.built i).id ∧ u.commits.get? m = some b ∧ w.AsPlanned b) ∧
        ∃ i b, m' = (w.built i).id ∧ u'.commits.get? m' = some b ∧ w.AsPlanned b := by
  rcases hm with hone | ⟨htwo, hb⟩
  · rcases hm' with hone' | ⟨htwo, -⟩
    · have hmem : m ∈ w.tips := hone ▸ OrdSet.mem_single.2 rfl
      exact .inl ⟨OrdSet.mem_single.1 (hone' ▸ hmem), hw.tip_stored hmem⟩
    · exact absurd hone (tips_ne_single htwo m)
  · rcases hm' with hone' | ⟨-, hb'⟩
    · exact absurd hone' (tips_ne_single htwo m')
    · exact .inr ⟨htwo, hb, hb'⟩

theorem Result.document_eq (hm : w.Result u m) (hm' : w.Result u' m') (hw : w.Valid)
    (hu : w.Underway u) (hu' : w.Underway u') : w.document m = w.document m' := by
  rcases hm.cases hm' hw with ⟨rfl, -⟩ | ⟨htwo, ⟨-, b, -, hb, hplanned⟩, -, b', -, hb', hplanned'⟩
  · rfl
  · obtain ⟨x, hx⟩ := OrdSet.exists_mem_of_two_le htwo
    obtain ⟨edge, he⟩ := ((hw.plan htwo).keys x).2 hx
    have hleads := (hu.sound hw).leads hb (hplanned.parents ▸ he)
    have hleads' := (hu'.sound hw).leads hb' (hplanned'.parents ▸ he)
    rw [← hleads.applyAll_eq, ← hleads'.applyAll_eq]

theorem Result.level_eq (hm : w.Result u m) (hm' : w.Result u' m') (hw : w.Valid)
    (hu : w.Underway u) (hu' : w.Underway u') {c c' : Commit κ} (hc : u.commits.get? m = some c)
    (hc' : u'.commits.get? m' = some c') : c.level = c'.level := by
  rcases hm.cases hm' hw with
    ⟨rfl, d, hd⟩ | ⟨-, ⟨-, b, -, hb, hplanned⟩, -, b', -, hb', hplanned'⟩
  · obtain rfl : d = c := Option.some.inj ((hu.history m d hd).symm.trans hc)
    obtain rfl : d = c' := Option.some.inj ((hu'.history m d hd).symm.trans hc')
    rfl
  · cases hb.symm.trans hc
    cases hb'.symm.trans hc'
    rw [hplanned.level, hplanned'.level]

theorem Result.level_le (hm : w.Result u m) (hw : w.Valid) (hu : w.Underway u) {n : Nat}
    (htips : ∀ x ∈ w.tips, ∀ b, w.history.get? x = some b → b.level < n) {c : Commit κ}
    (hc : u.commits.get? m = some c) : c.level ≤ n := by
  rcases hm with hone | ⟨htwo, -, b, -, hb, hplanned⟩
  · have hmem : m ∈ w.tips := hone ▸ OrdSet.mem_single.2 rfl
    obtain ⟨b, hb⟩ := hw.tip_stored hmem
    cases (hu.history m b hb).symm.trans hc
    exact Nat.le_of_lt (htips m hmem _ hb)
  · cases hb.symm.trans hc
    obtain ⟨k, hk, hlevel⟩ := (hw.plan htwo).level
    rw [hplanned.level, hlevel]
    exact hk.lt htips

/-- Where ids do not depend on how many have been given, two results are one commit. -/
theorem Result.eq_of_steady (hm : w.Result u m) (hm' : w.Result u' m') (hw : w.Valid)
    (hu : w.Underway u) (hu' : w.Underway u') (hsteady : w.rule.Steady) :
    m = m' ∧ u.commits.get? m = u'.commits.get? m' := by
  have hbuilt (i j : Nat) : w.built i = w.built j := by rw [built, hsteady i j, ← built]
  have hsame : m = m' := by
    rcases hm.cases hm' hw with ⟨heq, -⟩ | ⟨-, ⟨i, -, rfl, -⟩, j, -, rfl, -⟩
    · exact heq
    · rw [hbuilt i j]
  subst hsame
  refine ⟨rfl, ?_⟩
  obtain ⟨b, hb⟩ := hm.stored hw hu.history
  obtain ⟨b', hb'⟩ := hm'.stored hw hu'.history
  rw [hb, hb']
  rcases hu.others hb with hold | ⟨-, i, -, rfl⟩
  · rw [← hb', hu'.history m b hold]
  · rcases hu'.others hb' with hold | ⟨-, j, -, rfl⟩
    · rw [← hb, hu.history m b' hold]
    · rw [hbuilt i j]

/-- Two answers lead to the same document by the same operations. -/
theorem Done.agrees (hdone : w.Done s f u) (hdone' : w.Done t f' u') (hw : w.Valid) :
    w.document f.commit = w.document f'.commit ∧ f.diffs = f'.diffs ∧ f.level = f'.level := by
  have hdoc : w.document f.commit = w.document f'.commit :=
    hdone.result.document_eq hdone'.result hw hdone.underway hdone'.underway
  obtain ⟨l, hl, hdiffs⟩ := hdone.reaches.diffs
  obtain ⟨l', hl', hdiffs'⟩ := hdone'.reaches.diffs
  obtain ⟨b, hb, hlevel⟩ := hdone.reaches.level
  obtain ⟨b', hb', hlevel'⟩ := hdone'.reaches.level
  refine ⟨hdoc, ?_, ?_⟩
  · rw [hdiffs, hdiffs']
    exact hl.squash_unique (hdoc ▸ hl')
  · rw [hlevel, hlevel']
    exact hdone.result.level_eq hdone'.result hw hdone.underway hdone'.underway hb hb'

/-- No level is reached that cannot be, if the heads and the commit leave room for one more. -/
theorem Done.level_le (hdone : w.Done s f u) (hw : w.Valid) {n : Nat}
    (hheads : ∀ x ∈ w.start.heads, ∃ b, w.start.commits.get? x = some b ∧ b.level < n)
    (hcommit : w.commit.level < n) : f.level ≤ n := by
  obtain ⟨m, hm, hlevel⟩ := hdone.reaches.level
  rw [hlevel]
  refine hdone.result.level_le hw hdone.underway (fun x hx b hb => ?_) hm
  rcases OrdSet.mem_insert.1 ((hw.tips x).1 hx).1 with rfl | hx
  · obtain ⟨c, hc, hsame⟩ := hw.commit
    cases hc.symm.trans hb
    simp only [Commit.sameContent, Bool.and_eq_true, decide_eq_true_eq] at hsame
    rw [hsame.1.1.2]
    exact hcommit
  · obtain ⟨c, hc, hlt⟩ := hheads x hx
    cases (w.history_extends x c hc).symm.trans hb
    exact hlt

theorem Done.settled (hdone : w.Done t f u) (hw : w.Valid)
    (hrun : (Node.push w.commit).run (Store.repository w.rule) t = (.ok f, u))
    (hst : Extends w.start.commits t.commits) :
    Store.Settled w.commit w.start t w.document f u := by
  have hu := hdone.underway
  have htu : Extends t.commits u.commits := by
    have hextends := Store.history_extends_run w.rule (Node.push w.commit) t
    rwa [hrun] at hextends
  refine ⟨hu.sound hw, hdone.heads, Store.activeHeads_single hdone.heads, hu.commit_stored hw,
    fun x hx => ?_, hdone.reaches.level, hdone.reaches.leads, ⟨hst, htu⟩, fun id b hb => ?_⟩
  · rcases hx with rfl | hx | hx
    · exact hdone.result.above hw hu.history (OrdSet.mem_insert.2 (.inl rfl))
    · exact hdone.result.above hw hu.history (OrdSet.mem_insert.2 (.inr hx))
    · exact hdone.above x hx
  · rcases hu.others hb with hb | ⟨htwo, i, -, rfl⟩
    · rcases OrdMap.get?_insertIfNew_eq_some_iff.1 hb with hb | ⟨-, hid, -⟩
      · exact .inl hb
      · exact .inr (.inl hid)
    · rcases hdone.result with hone | ⟨-, -, c, -, hc, hplanned⟩
      · exact absurd hone (tips_ne_single htwo _)
      · refine .inr (.inr ⟨c, hc, ?_, ?_, ?_⟩)
        · rw [hplanned.parents, built]
        · rw [hplanned.level, built]
        · rw [hplanned.epoch, built]

end Errand

/-! ## Starting -/

theorem History.Graded.exists_root {h : History κ} (hg : h.Graded) {id : κ} {c : Commit κ}
    (hc : h.get? id = some c) :
    ∃ r b, h.get? r = some b ∧ b.parents = ∅ ∧ h.Ancestor r id := by
  refine hg.induction_on (P := fun id => ∃ r b, h.get? r = some b ∧ b.parents = ∅ ∧
    h.Ancestor r id) (fun m c hc ih => ?_) hc
  by_cases hparents : c.parents = ∅
  · exact ⟨m, c, hc, hparents, .refl m⟩
  · obtain ⟨p, edge, hedge⟩ := OrdMap.exists_get?_of_ne_empty hparents
    have hp : h.IsParent p m := ⟨c, edge, hc, hedge⟩
    obtain ⟨r, b, hb, hroot, ha⟩ := ih p (.single hp)
    exact ⟨r, b, hb, hroot, ha.trans hp.ancestor⟩

namespace Store

variable {s : Store κ} {doc : κ → Document} {c q : Commit κ} {p x : κ} {diffs : List Operation}

theorem Uniform.exists_lowest (hs : s.Uniform doc) (hq : s.commits.get? x = some q) :
    ∃ r, ∀ id b, s.commits.get? id = some b → Ancestor s.commits r id := by
  obtain ⟨r, b, hb, hroot, -⟩ := hs.toGraded.exists_root hq
  refine ⟨r, fun id d hd => ?_⟩
  obtain ⟨r', b', hb', hroot', ha⟩ := hs.toGraded.exists_root hd
  rwa [hs.root hb hb' hroot hroot']

abbrev withHead (s : Store κ) (c : Commit κ) : Store κ :=
  { s with commits := s.commits.insertIfNew c.id c, heads := s.heads.insert c.id }

theorem extends_withHead (s : Store κ) (c : Commit κ) :
    Extends s.commits (s.withHead c).commits := fun _ _ hb =>
  OrdMap.get?_insertIfNew_eq_some_iff.2 (.inl hb)

theorem exists_sameContent_withHead
    (hnew : ∀ b, s.commits.get? c.id = some b → b.sameContent c = true) :
    ∃ b, (s.withHead c).commits.get? c.id = some b ∧ b.sameContent c = true := by
  cases hold : s.commits.get? c.id with
  | some b => exact ⟨b, s.extends_withHead c _ b hold, hnew b hold⟩
  | none =>
      exact ⟨c, OrdMap.get?_insertIfNew_eq_some_iff.2 (.inr ⟨hold, rfl, rfl⟩), by
        simp [Commit.sameContent]⟩

theorem exists_sound_withHead (hs : Sound s.commits doc) (hq : s.commits.get? p = some q)
    (hlt : q.level < c.level) (hparents : c.parents = .single p diffs)
    (hanchors : (doc p).Anchors diffs)
    (hnew : ∀ b, s.commits.get? c.id = some b → b.sameContent c = true) :
    ∃ doc', Sound (s.withHead c).commits doc' ∧
      (∀ id b, s.commits.get? id = some b → doc' id = doc id) ∧
        doc' c.id = (doc p).applyAll diffs := by
  cases hold : s.commits.get? c.id with
  | none =>
      have hinsert : s.commits.insertIfNew c.id c = s.commits.insert c.id c := by
        simp [OrdMap.insertIfNew, OrdMap.contains, hold]
      refine ⟨_, hinsert ▸ hs.insert_child c hold hparents hq hlt hanchors, fun id b hb => ?_,
        Function.update_self ..⟩
      refine Function.update_of_ne ?_ ..
      rintro rfl
      rw [hold] at hb
      cases hb
  | some b =>
      have hinsert : s.commits.insertIfNew c.id c = s.commits := by
        simp [OrdMap.insertIfNew, OrdMap.contains, hold]
      have hsound : Sound (s.commits.insertIfNew c.id c) doc := by rwa [hinsert]
      refine ⟨doc, hsound, fun _ _ _ => rfl, ?_⟩
      have hsame := hnew b hold
      simp only [Commit.sameContent, Bool.and_eq_true, decide_eq_true_eq] at hsame
      have hedge : b.parents.get? p = some diffs := by
        rw [hsame.2, hparents, OrdMap.get?_single, if_pos rfl]
      exact (hs.leads hold hedge).applyAll_eq.symm

/-- A commit with a parent starts neither another history nor another epoch. -/
theorem Uniform.withHead (hs : s.Uniform doc) (hq : s.commits.get? p = some q)
    (hlt : q.level < c.level) (hepoch : c.epoch = q.epoch) (hparents : c.parents = .single p diffs)
    (hanchors : (doc p).Anchors diffs)
    (hnew : ∀ b, s.commits.get? c.id = some b → b.sameContent c = true) :
    ∃ doc', (s.withHead c).Uniform doc' ∧
      (∀ id b, s.commits.get? id = some b → doc' id = doc id) ∧
        doc' c.id = (doc p).applyAll diffs := by
  have hcases {id : κ} {b : Commit κ} (hb : (s.withHead c).commits.get? id = some b) :
      s.commits.get? id = some b ∨ b = c :=
    (OrdMap.get?_insertIfNew_eq_some_iff.1 hb).imp_right fun h => h.2.2
  have hne : c.parents ≠ ∅ := by
    intro h
    have hp : c.parents.get? p = none := h ▸ OrdMap.get?_empty p
    rw [hparents, OrdMap.get?_single, if_pos rfl] at hp
    cases hp
  have hsame {id : κ} {b : Commit κ} (hb : (s.withHead c).commits.get? id = some b) :
      b.epoch = q.epoch := by
    rcases hcases hb with hb | rfl
    · exact hs.epoch hb hq
    · exact hepoch
  obtain ⟨doc', hsound, hagrees, hdoc⟩ :=
    exists_sound_withHead hs.toSound hq hlt hparents hanchors hnew
  refine ⟨doc', ⟨hsound, fun {a b ca cb} ha hb hroot hroot' => ?_, fun {a b ca cb} ha hb => ?_,
    fun x hx => ?_⟩, hagrees, hdoc⟩
  · rcases hcases ha with ha | rfl
    · rcases hcases hb with hb | rfl
      · exact hs.root ha hb hroot hroot'
      · exact absurd hroot' hne
    · exact absurd hroot hne
  · rw [hsame ha, hsame hb]
  · rcases OrdSet.mem_insert.1 hx with rfl | hx
    · exact (exists_sameContent_withHead hnew).imp fun b hb => hb.1
    · exact (hs.heads x hx).imp fun b hb => s.extends_withHead c x b hb

end Store

theorem History.exists_tips (h : History κ) (heads : OrdSet κ) :
    ∃ tips : OrdSet κ, ∀ x, x ∈ tips ↔ h.IsTip heads x := by
  classical
  refine ⟨heads.filter fun x => decide (h.IsTip heads x), fun x => ?_⟩
  rw [OrdSet.mem_filter, decide_eq_true_iff]
  exact and_iff_right_of_imp fun hx => hx.1

/-- A commit that may be a head of a store with one root and one epoch is an errand. -/
theorem Errand.exists_valid {rule : IdRule κ} {s : Store κ} {doc : κ → Document} {c : Commit κ}
    {limit : Nat} (hs : (s.withHead c).Uniform doc)
    (hcommit : ∃ b, (s.withHead c).commits.get? c.id = some b ∧ b.sameContent c = true)
    (hspares : rule.Spares (s.withHead c).commits (s.withHead c).heads s.serial limit) :
    ∃ w : Errand κ, w.rule = rule ∧ w.commit = c ∧ w.start = s ∧ w.limit = limit ∧ w.Valid ∧
      ∀ id b, (s.withHead c).commits.get? id = some b → w.document id = doc id := by
  obtain ⟨tips, htips⟩ := exists_tips (s.withHead c).commits (s.withHead c).heads
  have hstored : ∀ x ∈ tips, ∃ b, (s.withHead c).commits.get? x = some b := fun x hx =>
    hs.heads x ((htips x).1 hx).1
  obtain ⟨b, hb, hsame⟩ := hcommit
  have hcommon : ∃ r, ∀ x ∈ tips, Ancestor (s.withHead c).commits r x :=
    (hs.exists_lowest hb).imp fun r hr x hx => (hstored x hx).elim (hr x)
  obtain ⟨plan, merged, hplan⟩ := Merge.exists_plans_leads hs.toSound hstored hcommon
  let w : Errand κ := ⟨rule, c, s, doc, tips, plan, merged, limit⟩
  have hw : w.Valid := by
    refine ⟨hs.toSound, ⟨b, hb, hsame⟩, fun x hx => ?_, ⟨b.epoch, fun id d hd => hs.epoch hd hb⟩,
      htips, fun htwo => (hplan htwo).1, fun htwo => (hplan htwo).2, ?_⟩
    · exact hs.heads x (OrdSet.mem_insert.2 (.inr hx))
    · intro htwo i d hi hlimit hd
      obtain ⟨hedges, hlevel, hepoch⟩ := hspares tips htips i hi hlimit plan d (hplan htwo).1 hd
      exact ⟨hedges, hlevel, hepoch⟩
  exact ⟨w, rfl, rfl, rfl, rfl, hw, fun id d hd => document_of_stored (w := w) hd⟩

namespace Node

theorem createCommit_eq_ok {rule : IdRule κ} {s t : Store κ} {p : κ} {diffs : List Operation}
    {level : Nat} {c : Commit κ}
    (h : (createCommit p diffs level).run (Store.repository rule) s = (.ok c, t)) :
    t = { s with serial := s.serial + 1 } ∧ c.parents = .single p diffs ∧
      ∃ q, s.commits.get? p = some q ∧ q.level < c.level ∧ c.epoch = q.epoch := by
  unfold createCommit loadCommit ask at h
  cases hq : s.commits.get? p with
  | none => simp [run, Store.repository, Store.answer, hq] at h
  | some q =>
      by_cases hle : level ≤ q.level
      · simp [run, Store.repository, Store.answer, hq, hle, fail] at h
      · simp [run, Store.repository, Store.answer, hq, hle, create, createFrom, ask] at h
        obtain ⟨rfl, rfl⟩ := h
        exact ⟨rfl, rfl, q, rfl, Nat.lt_of_not_le hle, rfl⟩

/-- Pushing a created commit again is safe and has its effect once. Whatever attempts have failed
and wherever, a push without faults returns and settles, and so would one in their place: both lead
to heads with one document, with the same operations and on the same level, and where ids do not
depend on how many have been given, to the same commit. Levels are numbers of 64 bits: the heads
and the commit must lie below the greatest of them, and then the merge has one of them as well. -/
theorem push_repeated {rule : IdRule κ} {r s t : Store κ} {doc : κ → Document} {p : κ}
    {diffs : List Operation} {level : Nat} {c : Commit κ} (hr : r.Uniform doc)
    (hheads : ∀ x ∈ r.heads, ∃ b, r.commits.get? x = some b ∧ b.level < Commit.maxLevel)
    (hanchors : (doc p).Anchors diffs)
    (hcreate : (createCommit p diffs level).run (Store.repository rule) r = (.ok c, s))
    (hlevel : c.level < Commit.maxLevel)
    (hnew : ∀ b, r.commits.get? c.id = some b → b.sameContent c = true)
    (hspares : rule.Spares (s.commits.insertIfNew c.id c) (s.heads.insert c.id) s.serial
      (t.serial + 1))
    (hattempts : Relation.ReflTransGen (Store.Tried rule c) s t) :
    ∃ doc' f u f' u',
      (∀ id b, s.commits.get? id = some b → doc' id = doc id) ∧
      doc' c.id = (doc p).applyAll diffs ∧
      (push c).run (Store.repository rule) t = (.ok f, u) ∧ Store.Settled c s t doc' f u ∧
      (push c).run (Store.repository rule) s = (.ok f', u') ∧ Store.Settled c s s doc' f' u' ∧
      doc' f.commit = doc' f'.commit ∧ f.diffs = f'.diffs ∧ f.level = f'.level ∧
      f.level ≤ Commit.maxLevel ∧
      (rule.Steady → f = f' ∧ u.commits.get? f.commit = u'.commits.get? f'.commit) := by
  obtain ⟨hs, hparents, q, hq, hlt, hepoch⟩ := createCommit_eq_ok hcreate
  have huniform : s.Uniform doc := by
    rw [hs]
    exact ⟨hr.toSound, hr.root, hr.epoch, hr.heads⟩
  have hcommits : s.commits = r.commits := by rw [hs]
  have hsame : s.heads = r.heads := by rw [hs]
  rw [← hcommits] at hq hnew hheads
  rw [← hsame] at hheads
  obtain ⟨doc', hhead, hagrees, hdoc⟩ :=
    huniform.withHead hq hlt hepoch hparents hanchors hnew
  have hcommit := Store.exists_sameContent_withHead hnew
  obtain ⟨w, rfl, rfl, rfl, hlimit, hw, hdocument⟩ := Errand.exists_valid hhead hcommit hspares
  obtain ⟨hserial, hst⟩ := Store.grown_of_attempts hattempts
  have ht : t = w.start ∨ w.Underway t := hw.underway_of_attempts hattempts (by omega)
  obtain ⟨f, u, hrun, hdone⟩ := hw.exists_done ht (by omega)
  obtain ⟨f', u', hrun', hdone'⟩ := hw.exists_done (.inl rfl) (by omega)
  obtain ⟨hdoc', hdiffs, hlevels⟩ := hdone.agrees hdone' hw
  refine ⟨w.document, f, u, f', u', fun id b hb => ?_, ?_, hrun, hdone.settled hw hrun hst, hrun',
    hdone'.settled hw hrun' (.refl _), hdoc', hdiffs, hlevels, hdone.level_le hw hheads hlevel,
    fun hsteady => ?_⟩
  · rw [hdocument id b (w.start.extends_withHead w.commit id b hb), hagrees id b hb]
  · obtain ⟨b, hb, -⟩ := hcommit
    rw [hdocument _ b hb, hdoc]
  · obtain ⟨hid, hstored⟩ :=
      hdone.result.eq_of_steady hdone'.result hw hdone.underway hdone'.underway hsteady
    refine ⟨?_, hstored⟩
    cases f
    cases f'
    cases hid
    cases hdiffs
    cases hlevels
    rfl

/-! ## A push that is not acknowledged -/

def aside : Commit UInt64 := ⟨3, .single 1 [Document.edit ∅ "j" (some "b")], 2, 0, none⟩

theorem uniform_kept : Store.Uniform { Store.kept with serial := 2 } Store.keptDocument := by
  refine ⟨Store.sound_kept, fun {a b ca cb} ha hb hroot hroot' => ?_, fun {a b ca cb} ha hb => ?_,
    fun x hx => ?_⟩
  · rcases Store.cases_kept ha with ⟨rfl, rfl⟩ | ⟨rfl, rfl⟩
    · rcases Store.cases_kept hb with ⟨rfl, rfl⟩ | ⟨rfl, rfl⟩
      · rfl
      · cases hroot'
    · cases hroot
  · rcases Store.cases_kept ha with ⟨rfl, rfl⟩ | ⟨rfl, rfl⟩ <;>
      rcases Store.cases_kept hb with ⟨rfl, rfl⟩ | ⟨rfl, rfl⟩ <;> rfl
  · rw [OrdSet.mem_single.1 hx]
    exact ⟨_, rfl⟩

theorem spares_kept {last : Nat} (hlast : last ≤ 2 ^ 64) : (IdRule.sequential 1).Spares
    (Store.kept.commits.insertIfNew 3 aside) (Store.kept.heads.insert 3) 3 last := by
  refine IdRule.Separates.spares (IdRule.sequential_separates 1) hlast fun id c hc => ?_
  rcases OrdMap.get?_insertIfNew_eq_some_iff.1 hc with hc | ⟨-, rfl, rfl⟩
  · rcases Store.cases_kept hc with ⟨rfl, rfl⟩ | ⟨rfl, rfl⟩
    · exact ⟨rfl, 0, by omega, by omega, rfl⟩
    · exact ⟨rfl, 1, by omega, by omega, rfl⟩
  · exact ⟨rfl, 2, by omega, by omega, rfl⟩

/-- The push is stored, and there is no answer. -/
theorem tried_kept : Store.Tried (.sequential 1) aside { Store.kept with serial := 3 }
    { Store.kept with
      serial := 3, pushed := 1, commits := Store.kept.commits.insert 3 aside } :=
  ⟨.error (.storage "no answer"),
    .call ⟨.inr ⟨.storage "no answer", rfl, rfl, .inr ⟨[aside], rfl, rfl⟩⟩, trivial⟩
      (.done _ _)⟩

def half : Store Digest where
  commits := (OrdMap.single Merge.base.id Merge.base).insert Merge.left.id Merge.left
  heads := .single Merge.left.id
  serial := 2

theorem cases_half {id : Digest} {c : Commit Digest} (hc : half.commits.get? id = some c) :
    id = Merge.left.id ∧ c = Merge.left ∨ id = Merge.base.id ∧ c = Merge.base := by
  rw [half, OrdMap.get?_insert, OrdMap.get?_single] at hc
  split at hc
  next hid => exact .inl ⟨hid, (Option.some.inj hc).symm⟩
  next =>
    split at hc
    next hid => exact .inr ⟨hid, (Option.some.inj hc).symm⟩
    next => cases hc

theorem get?_half : half.commits.get? Merge.base.id = some Merge.base ∧
    half.commits.get? Merge.right.id = none := by
  constructor
  · rw [half, OrdMap.get?_insert_of_ne _ _ (by decide), OrdMap.get?_single, if_pos rfl]
  · rw [half, OrdMap.get?_insert_of_ne _ _ (by decide), OrdMap.get?_single, if_neg (by decide)]

theorem uniform_half : ∃ doc, half.Uniform doc ∧ doc Merge.base.id = ∅ := by
  obtain ⟨doc, hs, hdoc⟩ := Merge.forks_here.exists_sound_left
  refine ⟨doc, ⟨hs, fun {a b ca cb} ha hb hroot hroot' => ?_, fun {a b ca cb} ha hb => ?_,
    fun x hx => ?_⟩, hdoc⟩
  · rcases cases_half ha with ⟨rfl, rfl⟩ | ⟨rfl, rfl⟩
    · cases hroot
    · rcases cases_half hb with ⟨rfl, rfl⟩ | ⟨rfl, rfl⟩
      · cases hroot'
      · rfl
  · rcases cases_half ha with ⟨rfl, rfl⟩ | ⟨rfl, rfl⟩ <;>
      rcases cases_half hb with ⟨rfl, rfl⟩ | ⟨rfl, rfl⟩ <;> rfl
  · rw [OrdSet.mem_single.1 hx]
    exact ⟨Merge.left, OrdMap.get?_insert_self ..⟩

theorem tips_here {tips : OrdSet Digest}
    (htips : ∀ x, x ∈ tips ↔ IsTip Merge.here.commits Merge.here.heads x) :
    tips = Merge.here.heads := by
  obtain ⟨doc, hs⟩ := Merge.forks_here.exists_sound
  have hlevels : ∀ c ∈ [Merge.left, Merge.right], c.level = 2 := by decide
  refine OrdSet.ext fun x => (htips x).trans (and_iff_left_of_imp fun hx y hy hxy => ?_)
  obtain ⟨c, hc, hcx, -⟩ := Merge.forks_here.isParent hx
  obtain ⟨d, hd, hdy, -⟩ := Merge.forks_here.isParent hy
  have hlt := hs.toGraded.proper_level hxy hcx hdy
  rw [hlevels c hc, hlevels d hd] at hlt
  exact Nat.lt_irrefl _ hlt

theorem run_createCommit_half :
    (createCommit Merge.base.id [Document.edit ∅ "k" (some "b")] 2).run
      (Store.repository .content) half = (.ok Merge.right, { half with serial := 3 }) := by
  have hload : (loadCommit Merge.base.id).run (Store.repository .content) half =
      (.ok Merge.base, half) := by
    simp [loadCommit, ask, run, Store.repository, Store.answer, get?_half.1]
  have hid : Merge.right.id = IdRule.content.assign 2 0 Merge.right.parents 2 :=
    Merge.addressed_of_mem (by simp)
  have hright : Merge.right = ⟨IdRule.content.assign 2 0 Merge.right.parents 2,
      Merge.right.parents, 2, 0, none⟩ := by
    rw [← hid]
    rfl
  rw [createCommit, run_bind_ok hload, if_neg (by decide), hright]
  rfl

theorem next_half : half.commits.insertIfNew Merge.right.id Merge.right = Merge.here.commits ∧
    half.heads.insert Merge.right.id = Merge.here.heads := by
  refine ⟨?_, rfl⟩
  rw [OrdMap.insertIfNew, OrdMap.contains, get?_half.2]
  rfl

/-- No id is needed but that of the merge, and no stored commit collides with it. -/
theorem spares_half (first last : Nat) :
    IdRule.content.Spares (half.commits.insertIfNew Merge.right.id Merge.right)
      (half.heads.insert Merge.right.id) first last := by
  intro tips htips i _ _
  rw [next_half.1, next_half.2] at htips
  rw [next_half.1, tips_here htips]
  exact Merge.fits_here i

theorem new_half (b : Commit Digest) (hb : half.commits.get? Merge.right.id = some b) :
    b.sameContent Merge.right = true := by
  rw [get?_half.2] at hb
  cases hb

theorem tried_half : Store.Tried .content Merge.right { half with serial := 3 }
    (Store.push { half with serial := 3 } [Merge.right]).2 := by
  have hparent : ∀ p ∈ Merge.right.parentIds,
      ∃ q, half.commits.get? p = some q ∧ q.level < Merge.right.level := by
    intro p hp
    rw [(mem_parentIds_single Merge.forks_here.right).1 hp]
    exact ⟨Merge.base, get?_half.1, Merge.forks_here.levels.2⟩
  obtain ⟨t, ht, -⟩ := Store.push_singleton (s := { half with serial := 3 }) new_half hparent
  rw [ht]
  exact ⟨.error (.storage "no answer"),
    .call ⟨.inr ⟨.storage "no answer", rfl, rfl, .inr ⟨[Merge.right], rfl, ht⟩⟩, trivial⟩
      (.done _ _)⟩

/-- In the first store ids are numbers and in the second one digests. In both the push of the second
child has been stored, but the client was not told. -/
theorem push_repeated_unacknowledged :
    (∃ doc' f u f' u',
      (∀ id b, Store.kept.commits.get? id = some b → doc' id = Store.keptDocument id) ∧
      doc' 3 = (Store.keptDocument 1).applyAll [Document.edit ∅ "j" (some "b")] ∧
      (push aside).run (Store.repository (.sequential 1)) { Store.kept with
        serial := 3, pushed := 1, commits := Store.kept.commits.insert 3 aside } = (.ok f, u) ∧
      Store.Settled aside { Store.kept with serial := 3 } { Store.kept with
        serial := 3, pushed := 1, commits := Store.kept.commits.insert 3 aside } doc' f u ∧
      (push aside).run (Store.repository (.sequential 1)) { Store.kept with serial := 3 } =
        (.ok f', u') ∧
      Store.Settled aside { Store.kept with serial := 3 } { Store.kept with serial := 3 } doc' f'
        u' ∧
      doc' f.commit = doc' f'.commit ∧ f.diffs = f'.diffs ∧ f.level = f'.level) ∧
    ∃ doc' f u u',
      (push Merge.right).run (Store.repository .content)
        (Store.push { half with serial := 3 } [Merge.right]).2 = (.ok f, u) ∧
      Store.Settled Merge.right { half with serial := 3 }
        (Store.push { half with serial := 3 } [Merge.right]).2 doc' f u ∧
      (push Merge.right).run (Store.repository .content) { half with serial := 3 } = (.ok f, u') ∧
      u.commits.get? f.commit = u'.commits.get? f.commit := by
  constructor
  · have hheads : ∀ x ∈ Store.kept.heads,
        ∃ b, Store.kept.commits.get? x = some b ∧ b.level < Commit.maxLevel := by
      intro x hx
      rw [OrdSet.mem_single.1 hx]
      exact ⟨_, rfl, by decide⟩
    have hanchors : (Store.keptDocument 1).Anchors [Document.edit ∅ "j" (some "b")] :=
      (Document.Leads.edit ∅ "j" (some "b")).anchors
    have hcreate : (createCommit 1 [Document.edit ∅ "j" (some "b")] 2).run
        (Store.repository (.sequential 1)) { Store.kept with serial := 2 } =
          (.ok aside, { Store.kept with serial := 3 }) := rfl
    obtain ⟨doc', f, u, f', u', hold, hdoc, hrun, hsettled, hrun', hsettled', hsame, hdiffs, hlevel,
      -⟩ := push_repeated uniform_kept hheads hanchors hcreate (by decide) (by rintro b ⟨⟩)
        (spares_kept (by decide)) (.single tried_kept)
    exact ⟨doc', f, u, f', u', hold, hdoc, hrun, hsettled, hrun', hsettled', hsame, hdiffs, hlevel⟩
  · obtain ⟨doc, huniform, hdoc⟩ := uniform_half
    have hheads : ∀ x ∈ half.heads,
        ∃ b, half.commits.get? x = some b ∧ b.level < Commit.maxLevel := by
      intro x hx
      rw [OrdSet.mem_single.1 hx]
      exact ⟨Merge.left, OrdMap.get?_insert_self .., by decide⟩
    have hanchors : (doc Merge.base.id).Anchors [Document.edit ∅ "k" (some "b")] := by
      rw [hdoc]
      exact (Document.Leads.edit ∅ "k" (some "b")).anchors
    obtain ⟨doc', f, u, f', u', -, -, hrun, hsettled, hrun', -, -, -, -, -, hsteady⟩ :=
      push_repeated huniform hheads hanchors run_createCommit_half (by decide) new_half
        (spares_half 3 _) (.single tried_half)
    obtain ⟨rfl, hstored⟩ := hsteady IdRule.content_steady
    exact ⟨doc', f, u, u', hrun, hsettled, hrun', hstored⟩

end Node

end Confluence
