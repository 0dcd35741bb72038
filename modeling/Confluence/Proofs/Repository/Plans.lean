import Confluence.Proofs.Document.Difference
import Confluence.Proofs.History.Merge
import Confluence.Proofs.History.Tips
import Confluence.Proofs.Repository.Responses

/-!
# Plans repeat

A merge can be planned whenever its heads have a common ancestor, and the plan is the same whenever
it is made: the search may take other routes and other commits may have been stored in the
meantime, but the squashed edges of any two routes between two commits are the same list, so the
edges of the merge are the same, and so are its level and its epoch.
-/

namespace Confluence

open History Program

variable {κ : Type} [CommitId κ]

namespace History

variable {h g : History κ} {doc : κ → Document} {heads : OrdSet κ} {a d x y : κ}
  {edges edges' : List (List Operation)}

/-! ## Routes -/

theorem Route.grow (he : h.Extends g) (hr : h.Route a d edges) : g.Route a d edges := by
  induction hr with
  | nil a => exact .nil a
  | cons hc hp _ ih => exact .cons (he _ _ hc) hp ih

namespace Sound

theorem squash_fold_squashed (hs : h.Sound doc) (hr : h.Route a d edges) :
    Operation.squash (Accumulator.squashed.fold edges) = Accumulator.squashed.fold edges := by
  cases hr with
  | nil a => rfl
  | cons hc hp rest =>
      have hl := (hs.leads hc hp).append (hs.leads_fold_squashed rest)
      exact hl.squash.squash_unique hl

/-- What is kept of a route depends on its two ends alone. -/
theorem fold_squashed_unique (hs : h.Sound doc) (hr : h.Route a d edges)
    (hr' : h.Route a d edges') :
    Accumulator.squashed.fold edges = Accumulator.squashed.fold edges' := by
  rw [← hs.squash_fold_squashed hr, ← hs.squash_fold_squashed hr']
  exact (hs.leads_fold_squashed hr).squash_unique (hs.leads_fold_squashed hr')

end Sound

/-! ## Heads in a history that grows -/

theorem IsNearest.unique {a b : κ} (hg : h.Graded) (hne : ∃ x, x ∈ heads)
    (hheads : ∀ x ∈ heads, ∃ c, h.get? x = some c) (ha : h.IsNearest heads a)
    (hb : h.IsNearest heads b) : a = b := by
  obtain ⟨x, hx⟩ := hne
  obtain ⟨c, hc⟩ := hheads x hx
  obtain ⟨ca, hca⟩ := hg.exists_of_ancestor (ha.common x hx) hc
  obtain ⟨cb, hcb⟩ := hg.exists_of_ancestor (hb.common x hx) hc
  rcases ha.greatest hb.common hca hcb with heq | hba
  · exact heq.symm
  · rcases hb.greatest ha.common hcb hca with heq | hab
    · exact heq
    · exact absurd (hab.trans hba) (Commit.Lower.irrefl ca)

theorem IsNearest.grow {a : κ} (hg : h.Graded) (he : Extends h g) (hne : ∃ x, x ∈ heads)
    (hheads : ∀ x ∈ heads, ∃ c, h.get? x = some c) (ha : h.IsNearest heads a) :
    g.IsNearest heads a := by
  refine ⟨fun x hx => he.ancestor (ha.common x hx), fun {b ca cb} hb hca hcb => ?_⟩
  have hb' : ∀ x ∈ heads, h.Ancestor b x := by
    intro x hx
    obtain ⟨c, hc⟩ := hheads x hx
    exact (he.ancestor_iff hg hc).1 (hb x hx)
  obtain ⟨x, hx⟩ := hne
  obtain ⟨c, hc⟩ := hheads x hx
  obtain ⟨ca', hca'⟩ := hg.exists_of_ancestor (ha.common x hx) hc
  obtain ⟨cb', hcb'⟩ := hg.exists_of_ancestor (hb' x hx) hc
  cases (he a ca' hca').symm.trans hca
  cases (he b cb' hcb').symm.trans hcb
  exact ha.greatest hb' hca' hcb'

theorem IsGreatest.unique (he : h.Extends g) (hheads : ∀ x ∈ heads, ∃ c, h.get? x = some c)
    {f : Commit κ → Nat} {m n : Nat} (hm : h.IsGreatest heads f m) (hn : g.IsGreatest heads f n) :
    m = n := by
  obtain ⟨hle, x, hx, c, hc, rfl⟩ := hm
  obtain ⟨hle', y, hy, d, hd, rfl⟩ := hn
  obtain ⟨d', hd'⟩ := hheads y hy
  obtain rfl : d' = d := Option.some.inj ((he y d' hd').symm.trans hd)
  exact Nat.le_antisymm (hle' x hx c (he x c hc)) (hle y hy d' hd')

theorem Extends.proper_iff (he : h.Extends g) (hg : h.Graded) {c : Commit κ}
    (hy : h.get? y = some c) : g.ProperAncestor x y ↔ h.ProperAncestor x y := by
  simp only [ProperAncestor, Relation.TransGen.tail'_iff]
  refine exists_congr fun p => ?_
  rw [isParent_iff (he y c hy), isParent_iff hy]
  refine and_congr_left fun hp => ?_
  obtain ⟨q, hq⟩ := hg.exists_of_isParent ((isParent_iff hy).2 hp)
  exact he.ancestor_iff hg hq

theorem Extends.isTip_iff (he : h.Extends g) (hg : h.Graded)
    (hheads : ∀ x ∈ heads, ∃ c, h.get? x = some c) : g.IsTip heads x ↔ h.IsTip heads x := by
  refine and_congr_right fun _ => forall₂_congr fun y hy => ?_
  obtain ⟨c, hc⟩ := hheads y hy
  rw [he.proper_iff hg hc]

end History

namespace Store

variable {s : Store κ}

theorem mem_activeHeads {x : κ} :
    x ∈ s.activeHeads ↔ x ∈ s.heads ∧ ∀ y ∈ s.heads, s.epochOf y ≤ s.epochOf x := by
  obtain ⟨-, hle, hmax⟩ := foldl_max s.epochOf s.heads.toList 0
  unfold activeHeads
  rw [OrdSet.mem_filter, beq_iff_eq]
  refine and_congr_right fun hx => ⟨fun heq y hy => ?_, fun hgreatest => ?_⟩
  · rw [heq]
    exact hle y hy
  · refine Nat.le_antisymm (hle x hx) ?_
    rcases hmax with hzero | ⟨y, hy, heq⟩
    · rw [hzero]
      exact Nat.zero_le _
    · rw [← heq]
      exact hgreatest y hy

/-- A head with a greater epoch than all others is the only active one. -/
theorem activeHeads_eq_single {x : κ} (hx : x ∈ s.heads)
    (holder : ∀ y ∈ s.heads, y ≠ x → s.epochOf y < s.epochOf x) : s.activeHeads = .single x := by
  refine OrdSet.ext fun y => ?_
  rw [mem_activeHeads, OrdSet.mem_single]
  constructor
  · rintro ⟨hy, hgreatest⟩
    by_contra hne
    exact absurd (holder y hy hne) (Nat.not_lt_of_le (hgreatest x hx))
  · rintro rfl
    refine ⟨hx, fun z hz => ?_⟩
    by_cases hne : z = y
    · exact Nat.le_of_eq (congrArg s.epochOf hne)
    · exact Nat.le_of_lt (holder z hz hne)

theorem activeHeads_of_epoch {e : Nat}
    (h : ∀ x ∈ s.heads, ∃ c, s.commits.get? x = some c ∧ c.epoch = e) :
    s.activeHeads = s.heads := by
  have hepoch : ∀ x ∈ s.heads, s.epochOf x = e := by
    intro x hx
    obtain ⟨c, hc, he⟩ := h x hx
    simp [epochOf, hc, he]
  refine OrdSet.ext fun x => mem_activeHeads.trans (and_iff_left_of_imp fun hx y hy => ?_)
  exact Nat.le_of_eq ((hepoch y hy).trans (hepoch x hx).symm)

end Store

namespace Merge

variable {h g : History κ} {doc : κ → Document} {heads : OrdSet κ} {p q : Plan κ}

/-- A merge is planned the same whenever it is planned. -/
theorem Plans.unique (hs : g.Sound doc) (hg : h.Graded) (he : h.Extends g)
    (hne : ∃ x, x ∈ heads) (hheads : ∀ x ∈ heads, ∃ c, h.get? x = some c)
    (hp : Plans h heads p) (hq : Plans g heads q) : p = q := by
  obtain ⟨a, ha, hpa, hok⟩ := hp.paths
  obtain ⟨b, hb, hpb, hok'⟩ := hq.paths
  have hstored : ∀ x ∈ heads, ∃ c, g.get? x = some c := fun x hx =>
    (hheads x hx).imp fun c hc => he x c hc
  have hab : a.commit = b.commit :=
    (ha.grow hg he hne hheads).unique hs.toGraded hne hstored hb
  have hpaths : a.paths = b.paths := by
    refine OrdMap.ext fun x => Option.ext fun l => ?_
    constructor
    · intro hl
      obtain ⟨hx, edges, hr, rfl⟩ := hpa.2 x l hl
      obtain ⟨l', hl'⟩ := hpb.1 x hx
      obtain ⟨-, edges', hr', rfl⟩ := hpb.2 x l' hl'
      rw [hl', hs.fold_squashed_unique hr' (hab ▸ hr.grow he)]
    · intro hl
      obtain ⟨hx, edges, hr, rfl⟩ := hpb.2 x l hl
      obtain ⟨l', hl'⟩ := hpa.1 x hx
      obtain ⟨-, edges', hr', rfl⟩ := hpa.2 x l' hl'
      rw [hl', hs.fold_squashed_unique (hab ▸ hr'.grow he) hr]
  obtain ⟨m, hm, hpm⟩ := hp.level
  obtain ⟨n, hn, hqn⟩ := hq.level
  have hlevel : p.level = q.level := by rw [hpm, hqn, hm.unique he hheads hn]
  have hepoch : p.epoch = q.epoch := hp.epoch.unique he hheads hq.epoch
  have hedges : p.edges = q.edges := by
    rw [hpaths, hok'] at hok
    exact (Except.ok.inj hok).symm
  cases p
  cases q
  cases hlevel
  cases hepoch
  cases hedges
  rfl

/-- The merge of heads with a common ancestor is planned against every store that does not fail. -/
theorem exists_run_plan (rule : IdRule κ) {s : Store κ} (hs : Sound s.commits doc)
    (hne : ∃ x, x ∈ heads) (hheads : ∀ x ∈ heads, ∃ c, s.commits.get? x = some c)
    (hcommon : ∃ a, ∀ x ∈ heads, Ancestor s.commits a x) :
    ∃ p, (plan heads).run (Store.repository rule) s = (.ok p, s) ∧ Plans s.commits heads p := by
  have hplan : (plan heads).Reads (s.view fun _ => False) (Plans s.commits heads) fun _ => False :=
    reads_plan_sound hs hne hheads (fun p hp => hp) (fun hn => absurd hcommon hn) fun _ he => he
  have hensures : (plan heads).Ensures (Store.environment rule (fun _ => False) fun _ => True)
      (fun p t => Plans s.commits heads p ∧ t = s) (fun e t => False ∧ t = s) s :=
    hplan.ensures (Store.environment_serves s) rfl
  rcases hensures.run with ⟨p, _, hrun, hp, rfl⟩ | ⟨_, _, -, he, -⟩
  · exact ⟨p, hrun, hp⟩
  · exact he.elim

theorem exists_plans (hs : h.Sound doc) (hne : ∃ x, x ∈ heads)
    (hheads : ∀ x ∈ heads, ∃ c, h.get? x = some c)
    (hcommon : ∃ a, ∀ x ∈ heads, h.Ancestor a x) : ∃ p, Plans h heads p := by
  obtain ⟨x, hx⟩ := hne
  obtain ⟨p, -, hp⟩ :=
    exists_run_plan ⟨fun _ _ _ _ => x⟩ (s := { commits := h }) hs ⟨x, hx⟩ hheads hcommon
  exact ⟨p, hp⟩

/-- If there are several heads, their merge can be planned and has a document. -/
theorem exists_plans_leads (hs : h.Sound doc) (hheads : ∀ x ∈ heads, ∃ c, h.get? x = some c)
    (hcommon : ∃ a, ∀ x ∈ heads, h.Ancestor a x) :
    ∃ p d, 2 ≤ heads.size → Plans h heads p ∧
      ∀ x edge, p.edges.get? x = some edge → Document.Leads (doc x) edge d := by
  by_cases htwo : 2 ≤ heads.size
  · obtain ⟨x, hx⟩ := OrdSet.exists_mem_of_two_le htwo
    obtain ⟨p, hp⟩ := exists_plans hs ⟨x, hx⟩ hheads hcommon
    obtain ⟨d, hd⟩ := hp.isMerge hs (m := ⟨x, p.edges, p.level, p.epoch, none⟩) rfl rfl rfl
    exact ⟨p, d, fun _ => ⟨hp, hd.edges⟩⟩
  · exact ⟨⟨0, ∅, 0⟩, ∅, fun h => absurd h htwo⟩

end Merge

end Confluence
