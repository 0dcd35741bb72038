import Confluence.Proofs.Commit.Content
import Confluence.Proofs.Repository.Plans

/-!
# Merging stored heads

Heads of a sound history that have a common ancestor are merged into one commit, whose edges lead
from each of them to one document, and the history stays sound. The id of the merge must be free;
where ids are computed from contents it may also belong to the same merge, made by someone else, and
then it is enough that the digest tells the text of this one merge from the texts of stored commits.
Levels are numbers of 64 bits, so the heads must lie below the greatest of them.
-/

namespace Confluence

open History

variable {κ : Type} [CommitId κ]

/-- The id that the merge of some heads gets next is free or belongs to that merge. -/
def IdRule.Fits (rule : IdRule κ) (h : History κ) (heads : OrdSet κ) (serial : Nat) : Prop :=
  ∀ p b, Merge.Plans h heads p → h.get? (rule.assign serial p.epoch p.edges p.level) = some b →
    b.parents = p.edges ∧ b.level = p.level ∧ b.epoch = p.epoch

namespace Store

/-- Every stored commit is found under the id that its content gives it. -/
def Addressed (s : Store Digest) : Prop :=
  ∀ id c, s.commits.get? id = some c → c.id = id ∧ c.Addressed

/-- Where ids are digests, the id of a merge fits if no stored commit collides with it. -/
theorem Addressed.fits {s : Store Digest} (hs : s.Addressed) {heads : OrdSet Digest} {serial : Nat}
    (hfree : ∀ p, Merge.Plans s.commits heads p → ∀ id b, s.commits.get? id = some b →
      Digest.ofText b.contentText = Digest.ofText (IdRule.contentText p.epoch p.edges p.level) →
        b.contentText = IdRule.contentText p.epoch p.edges p.level) :
    IdRule.content.Fits s.commits heads serial := by
  intro p b hp hb
  obtain ⟨hid, haddressed⟩ := hs _ b hb
  obtain ⟨hepoch, hparents, hlevel⟩ :=
    IdRule.contentText_inj (hfree p hp _ b hb (haddressed.symm.trans hid))
  exact ⟨hparents, hlevel, hepoch⟩

structure Merged (rule : IdRule κ) (s : Store κ) (doc : κ → Document) (heads : OrdSet κ)
    (m : Commit κ) (doc' : κ → Document) (t : Store κ) : Prop where
  id : m.id = rule.assign s.serial m.epoch m.parents m.level
  stored : t.commits.get? m.id = some m
  timestamp : s.commits.get? m.id = some m ∨ m.timestamp = none
  isMerge : Merge.IsMerge s.commits doc heads m (doc' m.id)
  history : Extends s.commits t.commits
  others : ∀ x, x ≠ m.id → t.commits.get? x = s.commits.get? x
  sound : Sound t.commits doc'
  agrees : ∀ x c, s.commits.get? x = some c → doc' x = doc x
  heads_eq : t.heads = s.heads
  snapshots : t.snapshots = s.snapshots
  serial : t.serial = s.serial + 1

section

variable {rule : IdRule κ} {s t : Store κ} {doc : κ → Document} {heads : OrdSet κ} {c m : Commit κ}
  {d : Document}

theorem merged_of_new (hs : Sound s.commits doc) (htime : c.timestamp = none)
    (hid : c.id = rule.assign s.serial c.epoch c.parents c.level)
    (hparents : ∀ x ∈ c.parentIds, ∃ q, s.commits.get? x = some q ∧ q.level < c.level)
    (hpushed : Pushed { s with serial := s.serial + 1 } [c] t)
    (hd : Merge.IsMerge s.commits doc heads c d) (hnew : s.commits.get? c.id = none) :
    Merged rule s doc heads c (Function.update doc c.id d) t := by
  have hget := hpushed.get?_singleton
  have hne {x : κ} {b : Commit κ} (hb : s.commits.get? x = some b) : x ≠ c.id := by
    rintro rfl
    rw [hnew] at hb
    cases hb
  have ht : t.commits = s.commits.insert c.id c := hpushed.commits_eq_insert hnew
  constructor
  · exact hid
  · rw [hget, hnew, Option.none_or, if_pos rfl]
  · exact .inr htime
  · rw [Function.update_self]
    exact hd
  · exact hpushed.history_extends
  · intro x hx
    rw [hget, if_neg hx, Option.or_none]
  · rw [ht]
    refine hs.insert hnew fun x e he => ⟨?_, hd.edges x e he⟩
    exact hparents x (OrdMap.mem_keys.2 ⟨e, he⟩)
  · exact fun x b hb => Function.update_of_ne (hne hb) ..
  · exact hpushed.heads
  · exact hpushed.snapshots
  · exact hpushed.serial

/-- A merge that is stored already: its edges lead to the document that it has. -/
theorem merged_of_stored (hs : Sound s.commits doc) (hne : ∃ x, x ∈ heads)
    (hid : m.id = rule.assign s.serial m.epoch m.parents m.level) (hmc : m.id = c.id)
    (hpushed : Pushed { s with serial := s.serial + 1 } [c] t)
    (hd : Merge.IsMerge s.commits doc heads m d) (hm : s.commits.get? m.id = some m) :
    Merged rule s doc heads m doc t := by
  have ht : t.commits = s.commits := hpushed.commits_eq_self (hmc ▸ hm)
  have hdoc : d = doc m.id := by
    obtain ⟨x, hx⟩ := hne
    obtain ⟨e, he⟩ := OrdMap.mem_keys.1 ((hd.parents x).2 hx)
    exact (hd.edges x e he).applyAll_eq.symm.trans (hs.leads hm he).applyAll_eq
  constructor
  · exact hid
  · rw [ht, hm]
  · exact .inl hm
  · exact hdoc ▸ hd
  · exact hpushed.history_extends
  · exact fun x _ => by rw [ht]
  · rw [ht]
    exact hs
  · exact fun _ _ _ => rfl
  · exact hpushed.heads
  · exact hpushed.snapshots
  · exact hpushed.serial

theorem exists_merged_of_pushed (hs : Sound s.commits doc) (hne : ∃ x, x ∈ heads)
    (hheads : ∀ x ∈ heads, ∃ c, s.commits.get? x = some c) {p : Merge.Plan κ}
    (hp : Merge.Plans s.commits heads p)
    (hc : c = ⟨rule.assign s.serial p.epoch p.edges p.level, p.edges, p.level, p.epoch, none⟩)
    (hpushed : Pushed { s with serial := s.serial + 1 } [c] t) :
    ∃ m doc', m.id = c.id ∧ Merged rule s doc heads m doc' t := by
  have hcid : c.id = rule.assign s.serial p.epoch p.edges p.level := by rw [hc]
  have hedges : c.parents = p.edges := by rw [hc]
  have hlevel : c.level = p.level := by rw [hc]
  have hepoch : c.epoch = p.epoch := by rw [hc]
  have htime : c.timestamp = none := by rw [hc]
  cases hold : s.commits.get? c.id with
  | none =>
      obtain ⟨d, hd⟩ := hp.isMerge hs hedges hlevel hepoch
      have hid : c.id = rule.assign s.serial c.epoch c.parents c.level := by
        rw [hcid, hedges, hlevel, hepoch]
      have hparents := hp.parents_level hheads hedges hlevel
      exact ⟨c, _, rfl, merged_of_new hs htime hid hparents hpushed hd hold⟩
  | some m =>
      have hsame := hpushed.same c List.mem_cons_self m hold
      simp only [Commit.sameContent, Bool.and_eq_true, decide_eq_true_eq] at hsame
      obtain ⟨⟨⟨hmid, hmlevel⟩, hmepoch⟩, hmedges⟩ := hsame
      have hid : m.id = rule.assign s.serial m.epoch m.parents m.level := by
        rw [hmid, hmedges, hmlevel, hmepoch, hcid, hedges, hlevel, hepoch]
      obtain ⟨d, hd⟩ := hp.isMerge hs (hmedges.trans hedges) (hmlevel.trans hlevel)
        (hmepoch.trans hepoch)
      exact ⟨m, doc, hmid, merged_of_stored hs hne hid hmid hpushed hd (hmid ▸ hold)⟩

/-- What has been planned can be stored under an id that fits. -/
theorem exists_pushed_of_plans (hs : Filed s.commits)
    (hheads : ∀ x ∈ heads, ∃ c, s.commits.get? x = some c)
    (hid : rule.Fits s.commits heads s.serial) {p : Merge.Plan κ}
    (hp : Merge.Plans s.commits heads p)
    (hc : c = ⟨rule.assign s.serial p.epoch p.edges p.level, p.edges, p.level, p.epoch, none⟩) :
    ∃ t, Store.push { s with serial := s.serial + 1 } [c] = (.ok (), t) ∧
      Pushed { s with serial := s.serial + 1 } [c] t := by
  have hcid : c.id = rule.assign s.serial p.epoch p.edges p.level := by rw [hc]
  have hsame : ∀ d, s.commits.get? c.id = some d → d.sameContent c = true := by
    intro d hd
    obtain ⟨hedges, hlevel, hepoch⟩ := hid p d hp (hcid ▸ hd)
    have hdid : d.id = c.id := hs _ d hd
    simp [Commit.sameContent, hdid, hedges, hlevel, hepoch, hc]
  have hparents := hp.parents_level hheads (c := c) (by rw [hc]) (by rw [hc])
  exact push_singleton hsame hparents

end

end Store

namespace Merge

open Program

theorem ensures_merge_of_plan {rule : IdRule κ} {fails : Fault → Prop} {allows : Store κ → Prop}
    {s : Store κ} {heads : OrdSet κ} {Q : Plan κ → Prop} {P : κ → Store κ → Prop}
    {E : Fault → Store κ → Prop} (htwo : 2 ≤ heads.size)
    (hplan : (plan heads).Reads (s.view fails) Q fails)
    (hstore : ∀ p, Q p → allows { s with serial := s.serial + 1 } → ∀ c : Commit κ,
      c = ⟨rule.assign s.serial p.epoch p.edges p.level, p.edges, p.level, p.epoch, none⟩ →
      ∃ t, Store.push { s with serial := s.serial + 1 } [c] = (.ok (), t) ∧ P c.id t ∧
        ∀ e, fails e → E e t)
    (hE : ∀ e, fails e → E e s ∧ E e { s with serial := s.serial + 1 }) :
    (merge heads).Ensures (Store.environment rule fails allows) P E s := by
  rw [merge_eq_plan htwo]
  apply Ensures.bind
  refine (hplan.ensures (Store.environment_serves s) rfl).mono ?_ ?_
  · rintro p t ⟨hp, rfl⟩
    apply Ensures.bind
    refine ensures_createFrom (fun hallows => ?_) fun e he => (hE e he).1
    obtain ⟨u, hu, hP, hEu⟩ := hstore p hp hallows _ rfl
    apply Ensures.bind
    exact ensures_push hu (ensures_pure hP) fun e he => ⟨(hE e he).2, hEu e he⟩
  · rintro e t ⟨he, rfl⟩
    exact (hE e he).1

/-- Merging several heads of a sound history ends with the merge, unless the store fails. -/
theorem ensures_merge {rule : IdRule κ} {fails : Fault → Prop} {allows : Store κ → Prop}
    {s : Store κ}
    {doc : κ → Document} {heads : OrdSet κ} {P : κ → Store κ → Prop} {E : Fault → Store κ → Prop}
    (hs : Sound s.commits doc) (htwo : 2 ≤ heads.size)
    (hheads : ∀ x ∈ heads, ∃ c, s.commits.get? x = some c)
    (hcommon : ∃ a, ∀ x ∈ heads, Ancestor s.commits a x)
    (hid : allows { s with serial := s.serial + 1 } → rule.Fits s.commits heads s.serial)
    (hP : ∀ m doc' t, Store.Merged rule s doc heads m doc' t → P m.id t)
    (hE : ∀ e t, fails e → (t = s ∨ t = { s with serial := s.serial + 1 } ∨
      ∃ m doc', Store.Merged rule s doc heads m doc' t) → E e t) :
    (merge heads).Ensures (Store.environment rule fails allows) P E s := by
  have hne := OrdSet.exists_mem_of_two_le htwo
  have hplan : (plan heads).Reads (s.view fails) (Plans s.commits heads) fails :=
    reads_plan_sound hs hne hheads (fun p hp => hp) (fun h => absurd hcommon h) fun e he => he
  refine ensures_merge_of_plan htwo hplan (fun p hp hallows c hc => ?_)
    fun e he => ⟨hE e _ he (.inl rfl), hE e _ he (.inr (.inl rfl))⟩
  obtain ⟨t, ht, hpushed⟩ :=
    Store.exists_pushed_of_plans (fun _ _ => hs.filed) hheads (hid hallows) hp hc
  obtain ⟨m, doc', hmid, hm⟩ := Store.exists_merged_of_pushed hs hne hheads hp hc hpushed
  exact ⟨t, ht, hmid ▸ hP m doc' t hm, fun e he => hE e t he (.inr (.inr ⟨m, doc', hm⟩))⟩

/-- Whatever merging several heads of a sound history comes to, it is the merge. -/
theorem merged_of_run {rule : IdRule κ} {s t : Store κ} {doc : κ → Document} {heads : OrdSet κ}
    {x : κ} (hs : Sound s.commits doc) (htwo : 2 ≤ heads.size)
    (hheads : ∀ x ∈ heads, ∃ c, s.commits.get? x = some c)
    (hrun : (merge heads).run (Store.repository rule) s = (.ok x, t)) :
    ∃ m doc', m.id = x ∧ Store.Merged rule s doc heads m doc' t := by
  have hne := OrdSet.exists_mem_of_two_le htwo
  have h : (merge heads).Ensures (Store.environment rule (fun _ => False) fun _ => True)
      (fun x t => ∃ m doc', m.id = x ∧ Store.Merged rule s doc heads m doc' t)
      (fun _ _ => True) s := by
    rw [merge_eq_plan htwo]
    apply Ensures.bind
    have hplan : (plan heads).Reads (s.view fun _ => False) (Plans s.commits heads) fun _ => True :=
      reads_plan_sound hs hne hheads (fun p hp => hp) (fun _ => trivial) fun _ _ => trivial
    refine (hplan.ensures (Store.environment_serves s) rfl).mono ?_ fun _ _ _ => trivial
    rintro p t ⟨hp, rfl⟩
    apply Ensures.bind
    refine ensures_createFrom (fun _ => ?_) fun _ _ => trivial
    apply Ensures.bind
    refine ensures_push_of_ok fun u hu => ?_
    apply ensures_pure
    exact Store.exists_merged_of_pushed hs hne hheads hp rfl (Store.push_eq_ok_iff.1 hu)
  rcases h.run with ⟨y, u, hrun', hm⟩ | ⟨e, u, hrun', -⟩
  · rw [hrun] at hrun'
    cases hrun'
    exact hm
  · rw [hrun] at hrun'
    cases hrun'

/-- Stored heads of a sound history that have a common ancestor are merged: the merge has them for
parents, lies one level above the highest in the newest epoch, and has one document, to which the
edges from all heads lead. A key has the value that the nearest common ancestor gives it if no head
has another one, and otherwise the greatest of the values that heads have changed it to. -/
theorem run_merge (rule : IdRule κ) (s : Store κ) (doc : κ → Document) (heads : OrdSet κ)
    (hs : Sound s.commits doc) (htwo : 2 ≤ heads.size)
    (hheads : ∀ x ∈ heads, ∃ c, s.commits.get? x = some c ∧ c.level < Commit.maxLevel)
    (hcommon : ∃ a, ∀ x ∈ heads, Ancestor s.commits a x)
    (hid : rule.Fits s.commits heads s.serial) :
    ∃ m doc' t, (merge heads).run (Store.repository rule) s = (.ok m.id, t) ∧
      Store.Merged rule s doc heads m doc' t ∧ m.level ≤ Commit.maxLevel := by
  have hstored : ∀ x ∈ heads, ∃ c, s.commits.get? x = some c := fun x hx =>
    (hheads x hx).imp fun c hc => hc.1
  have h : (merge heads).Ensures (Store.environment rule (fun _ => False) fun _ => True)
      (fun id t => ∃ m doc', id = m.id ∧ Store.Merged rule s doc heads m doc' t)
      (fun _ _ => False) s :=
    ensures_merge hs htwo hstored hcommon (fun _ => hid) (fun m doc' t hm => ⟨m, doc', rfl, hm⟩)
      fun _ _ he _ => he
  rcases h.run with ⟨id, t, hrun, m, doc', rfl, hm⟩ | ⟨_, _, _, he⟩
  · refine ⟨m, doc', t, hrun, hm, hm.isMerge.level_le fun x hx c hc => ?_⟩
    obtain ⟨c', hc', hlt⟩ := hheads x hx
    cases hc'.symm.trans hc
    exact hlt
  · exact he.elim

/-! ## Forks -/

section

variable {r a b c : Commit κ} {v w : String} {x : κ}

def fork (r a b : Commit κ) : History κ := .ofList ([r, a, b].map fun c => (c.id, c))

structure Forks (r a b : Commit κ) (v w : String) : Prop where
  ids : [r.id, a.id, b.id].Nodup
  root : r.parents = ∅
  left : a.parents = .single r.id [Document.edit ∅ "k" (some v)]
  right : b.parents = .single r.id [Document.edit ∅ "k" (some w)]
  levels : r.level < a.level ∧ r.level < b.level

theorem fork_eq (r a b : Commit κ) :
    fork r a b = (((∅ : History κ).insert r.id r).insert a.id a).insert b.id b := rfl

theorem mem_of_fork (h : (fork r a b).get? x = some c) : x = c.id ∧ c ∈ [r, a, b] := by
  rw [fork_eq, OrdMap.get?_insert, OrdMap.get?_insert, OrdMap.get?_insert] at h
  split at h
  next hx =>
    cases h
    exact ⟨hx, by simp⟩
  next =>
    split at h
    next hx =>
      cases h
      exact ⟨hx, by simp⟩
    next =>
      split at h
      next hx =>
        cases h
        exact ⟨hx, by simp⟩
      next => cases h

namespace Forks

theorem stored (h : Forks r a b v w) (hc : c ∈ [r, a, b]) : (fork r a b).get? c.id = some c := by
  have hids := h.ids
  simp only [List.nodup_cons, List.mem_cons, List.not_mem_nil, or_false, not_or] at hids
  simp only [List.mem_cons, List.not_mem_nil, or_false] at hc
  rw [fork_eq]
  rcases hc with rfl | rfl | rfl
  · rw [OrdMap.get?_insert_of_ne _ _ hids.1.2, OrdMap.get?_insert_of_ne _ _ hids.1.1,
      OrdMap.get?_insert_self]
  · rw [OrdMap.get?_insert_of_ne _ _ hids.2.1, OrdMap.get?_insert_self]
  · rw [OrdMap.get?_insert_self]

theorem exists_sound_left (h : Forks r a b v w) :
    ∃ doc, Sound ((OrdMap.single r.id r).insert a.id a) doc ∧ doc r.id = ∅ := by
  have hids := h.ids
  simp only [List.nodup_cons, List.mem_cons, List.not_mem_nil, or_false, not_or] at hids
  have hr : (OrdMap.single r.id r).get? r.id = some r := by rw [OrdMap.get?_single, if_pos rfl]
  have ha : (OrdMap.single r.id r).get? a.id = none := by
    rw [OrdMap.get?_single, if_neg fun he => hids.1.1 he.symm]
  exact ⟨_, (sound_single r h.root).insert_child a ha h.left hr h.levels.1
    (Document.Leads.edit ∅ "k" (some v)).anchors, Function.update_of_ne hids.1.1 ..⟩

theorem exists_sound (h : Forks r a b v w) : ∃ doc, Sound (fork r a b) doc := by
  have hids := h.ids
  simp only [List.nodup_cons, List.mem_cons, List.not_mem_nil, or_false, not_or] at hids
  obtain ⟨doc, hs, hdoc⟩ := h.exists_sound_left
  have hr : ((OrdMap.single r.id r).insert a.id a).get? r.id = some r := by
    rw [OrdMap.get?_insert_of_ne _ _ hids.1.1, OrdMap.get?_single, if_pos rfl]
  have hb : ((OrdMap.single r.id r).insert a.id a).get? b.id = none := by
    rw [OrdMap.get?_insert_of_ne _ _ fun he => hids.2.1 he.symm, OrdMap.get?_single,
      if_neg fun he => hids.1.2 he.symm]
  refine ⟨_, hs.insert_child b hb h.right hr h.levels.2 ?_⟩
  rw [hdoc]
  exact (Document.Leads.edit ∅ "k" (some w)).anchors

theorem isParent (h : Forks r a b v w) (hx : x ∈ OrdSet.ofList [a.id, b.id]) :
    ∃ c ∈ [a, b], (fork r a b).get? x = some c ∧ IsParent (fork r a b) r.id x := by
  have hparent {c : Commit κ} {u : String} (hc : c ∈ [r, a, b])
      (hedge : c.parents = .single r.id [Document.edit ∅ "k" (some u)]) :
      (fork r a b).get? c.id = some c ∧ IsParent (fork r a b) r.id c.id :=
    ⟨h.stored hc, (isParent_iff (h.stored hc)).2 ((mem_parentIds_single hedge).2 rfl)⟩
  rw [OrdSet.mem_ofList, List.mem_cons, List.mem_singleton] at hx
  rcases hx with rfl | rfl
  · exact ⟨a, by simp, hparent (by simp) h.left⟩
  · exact ⟨b, by simp, hparent (by simp) h.right⟩

end Forks

end

def child (id : UInt64) (v : String) : Commit UInt64 :=
  ⟨id, .single 1 [Document.edit ∅ "k" (some v)], 2, 0, none⟩

def forked : Store UInt64 where
  commits := fork ⟨1, ∅, 1, 0, none⟩ (child 2 "a") (child 3 "b")
  serial := 3

/-! ### The same by contents -/

def base : Commit Digest where
  id := ⟨#v[128, 183, 167, 175, 97, 244, 132, 204, 168, 41, 163, 219, 198, 134, 56, 120, 212, 178,
    172, 136, 138, 111, 155, 236, 244, 181, 2, 222, 227, 149, 141, 127]⟩
  parents := ∅
  level := 1
  epoch := 0

def left : Commit Digest where
  id := ⟨#v[204, 242, 200, 68, 129, 198, 103, 137, 235, 145, 219, 166, 60, 212, 235, 217, 54, 4,
    188, 18, 227, 221, 205, 68, 193, 46, 230, 63, 232, 91, 29, 133]⟩
  parents := .single base.id [Document.edit ∅ "k" (some "a")]
  level := 2
  epoch := 0

def right : Commit Digest where
  id := ⟨#v[29, 5, 240, 17, 20, 243, 42, 226, 129, 41, 174, 120, 144, 111, 94, 96, 49, 190, 167, 73,
    19, 107, 196, 95, 91, 101, 211, 115, 195, 251, 34, 31]⟩
  parents := .single base.id [Document.edit ∅ "k" (some "b")]
  level := 2
  epoch := 0

def joined : Commit Digest where
  id := ⟨#v[121, 134, 26, 19, 94, 14, 56, 182, 193, 156, 224, 133, 128, 177, 243, 29, 181, 25, 105,
    28, 237, 199, 203, 154, 194, 95, 170, 151, 154, 247, 251, 40]⟩
  parents := .ofList [(right.id, []), (left.id, [.single "k" ⟨some "a", some "b"⟩])]
  level := 3
  epoch := 0

theorem addressed_of_mem {c : Commit Digest} (hc : c ∈ [base, left, right, joined]) :
    c.Addressed := by
  have h : ∀ c ∈ [base, left, right, joined], c.Addressed := by decide +kernel
  exact h c hc

theorem nodup_ids : ([base, left, right, joined].map Commit.id).Nodup := by decide

def here : Store Digest where
  commits := fork base left right
  heads := .ofList [left.id, right.id]

theorem forks_here : Forks base left right "a" "b" where
  ids := nodup_ids.sublist (List.sublist_append_left [base.id, left.id, right.id] [joined.id])
  root := rfl
  left := rfl
  right := rfl
  levels := by decide

theorem addressed_here : here.Addressed := by
  intro id c hc
  obtain ⟨hid, hmem⟩ := mem_of_fork hc
  exact ⟨hid.symm, addressed_of_mem (List.mem_append_left [joined] hmem)⟩

theorem stored_here : ∀ x ∈ here.heads, ∃ c, here.commits.get? x = some c := fun _ hx =>
  (forks_here.isParent hx).imp fun _ hc => hc.2.1

theorem two_le_here : 2 ≤ here.heads.size := by
  have hleft : left.id ∈ here.heads := OrdSet.mem_ofList.2 (by simp)
  have hright : right.id ∈ here.heads := OrdSet.mem_ofList.2 (by simp)
  by_contra hlt
  rw [OrdSet.single_of_size_le_one (by omega) hleft, OrdSet.mem_single] at hright
  exact absurd hright (by decide)

theorem plans_here :
    (plan here.heads).run (Store.repository .content) here =
      (.ok ⟨joined.epoch, joined.parents, joined.level⟩, here) ∧
    Plans here.commits here.heads ⟨joined.epoch, joined.parents, joined.level⟩ := by
  obtain ⟨doc, hs⟩ := forks_here.exists_sound
  have hcommon : ∃ a, ∀ x ∈ here.heads, Ancestor here.commits a x :=
    ⟨base.id, fun x hx => (forks_here.isParent hx).elim fun _ hc => hc.2.2.ancestor⟩
  obtain ⟨p, hrun, hp⟩ := exists_run_plan .content (s := here) hs
    (OrdSet.exists_mem_of_two_le two_le_here) stored_here hcommon
  have hplan : ((plan here.heads).run (Store.repository .content) here).1 =
      .ok ⟨joined.epoch, joined.parents, joined.level⟩ := by decide +kernel
  rw [hrun] at hplan
  cases Except.ok.inj hplan
  exact ⟨hrun, hp⟩

theorem joined_not_stored {id : Digest} {b : Commit Digest} (hb : here.commits.get? id = some b) :
    b.id ≠ joined.id := by
  have hids : ([base.id, left.id, right.id] ++ [joined.id]).Nodup := nodup_ids
  exact (List.nodup_append.1 hids).2.2 b.id (List.mem_map_of_mem (mem_of_fork hb).2) joined.id
    List.mem_cons_self

theorem fits_here (serial : Nat) : IdRule.content.Fits here.commits here.heads serial := by
  obtain ⟨doc, hs⟩ := forks_here.exists_sound
  have hne := OrdSet.exists_mem_of_two_le two_le_here
  refine addressed_here.fits fun p hp id b hb htext => ?_
  cases plans_here.2.unique hs hs.toGraded (.refl _) hne stored_here hp
  have hjoined : joined.Addressed := addressed_of_mem (by simp)
  exact absurd ((addressed_here id b hb).2.trans (htext.trans hjoined.symm)) (joined_not_stored hb)

/-- Ids may be counted, or computed from the contents. -/
theorem run_merge_forked :
    (∃ doc m doc' t,
      (merge (.ofList [2, 3])).run (Store.repository (.sequential 1)) forked = (.ok m.id, t) ∧
        Store.Merged (.sequential 1) forked doc (.ofList [2, 3]) m doc' t ∧
        m.level ≤ Commit.maxLevel) ∧
      ∃ doc m doc' t, (merge here.heads).run (Store.repository .content) here = (.ok m.id, t) ∧
        Store.Merged .content here doc here.heads m doc' t ∧ m.level ≤ Commit.maxLevel := by
  constructor
  · have hforks : Forks ⟨1, ∅, 1, 0, none⟩ (child 2 "a") (child 3 "b") "a" "b" :=
      ⟨by decide, rfl, rfl, rfl, by decide, by decide⟩
    obtain ⟨doc, hs⟩ := hforks.exists_sound
    refine ⟨doc, run_merge (.sequential 1) forked doc (.ofList [2, 3]) hs (by decide)
      (fun x hx => ?_) ⟨1, fun x hx => ?_⟩ ?_⟩
    · obtain ⟨c, hmem, hc, -⟩ := hforks.isParent hx
      exact ⟨c, hc, (by decide : ∀ c ∈ [child 2 "a", child 3 "b"], c.level < _) c hmem⟩
    · exact (hforks.isParent hx).elim fun _ hc => hc.2.2.ancestor
    · rintro p b - ⟨⟩
  · obtain ⟨doc, hs⟩ := forks_here.exists_sound
    refine ⟨doc, run_merge .content here doc here.heads hs two_le_here (fun x hx => ?_)
      ⟨base.id, fun x hx => ?_⟩ (fits_here _)⟩
    · obtain ⟨c, hmem, hc, -⟩ := forks_here.isParent hx
      exact ⟨c, hc, (by decide : ∀ c ∈ [left, right], c.level < _) c hmem⟩
    · exact (forks_here.isParent hx).elim fun _ hc => hc.2.2.ancestor

end Merge

end Confluence
