import Confluence.Proofs.History.CommonAncestor
import Confluence.Proofs.History.Search
import Confluence.Proofs.Repository.Responses

/-!
# Walks through a store

What the three walks come to in a store whose history is graded, from stored heads. The common
ancestor that is found is the nearest one, with a path to every head. A search visits the commits
below its heads from the greatest down, each at most once, and ends with the first that its probe
accepts; what it has accumulated leads from the document there to that of the head it came from.
The heads that are left without their ancestors are the tips.
-/

namespace Confluence

open History Program

variable {κ : Type} [CommitId κ] {s : Store κ} {heads : OrdSet κ}

def braided : Store UInt64 where
  commits := .ofList (([
    ⟨1, ∅, 1, 0, none⟩,
    ⟨2, .single 1 [Document.edit ∅ "k" (some "a")], 2, 0, none⟩,
    ⟨3, .single 1 [Document.edit ∅ "j" (some "b")], 5, 0, none⟩,
    ⟨4, .ofList
      [(2, [Document.edit ∅ "j" (some "b")]), (3, [Document.edit ∅ "k" (some "a")])], 6, 0,
      none⟩,
    ⟨5, .ofList
      [(2, [Document.edit ∅ "j" (some "b")]), (3, [Document.edit ∅ "k" (some "a")])], 7, 0,
      none⟩] : List (Commit UInt64)).map fun c => (c.id, c))

def braidedDocument (id : UInt64) : Document :=
  if id = 1 then ∅
  else if id = 2 then (∅ : Document).put "k" (some "a")
  else if id = 3 then (∅ : Document).put "j" (some "b")
  else ((∅ : Document).put "k" (some "a")).put "j" (some "b")

theorem sound_braided : Sound braided.commits braidedDocument := by decide +kernel

theorem stored_of_contains {l : List κ} (h : l.all s.commits.contains) :
    ∀ x ∈ OrdSet.ofList l, ∃ c, s.commits.get? x = some c := fun x hx =>
  OrdMap.contains_iff.1 (List.all_eq_true.1 h x (OrdSet.mem_ofList.1 hx))

/-! ## The nearest common ancestor -/

/-- The walk of a merge fails only where heads have no common ancestor, and otherwise finds the
nearest one, with what is squashed of the edges of a way up to each head. -/
theorem CommonAncestor.run_nearest (rule : IdRule κ) (hg : Graded s.commits)
    (hne : ∃ x, x ∈ heads) (hheads : ∀ x ∈ heads, ∃ c, s.commits.get? x = some c) :
    ((loadCommits heads.toList >>= find heads).run (Store.repository rule) s =
        (.error (noneFault heads), s) ↔ ¬∃ a, ∀ x ∈ heads, Ancestor s.commits a x) ∧
      ((∃ a, ∀ x ∈ heads, Ancestor s.commits a x) → ∃ found,
        (loadCommits heads.toList >>= find heads).run (Store.repository rule) s = (.ok found, s) ∧
          IsNearest s.commits heads found.commit ∧
          PathsFrom s.commits heads found.commit found.paths) := by
  have hreads : (loadCommits heads.toList >>= find heads).Reads (s.view fun _ => False)
      (fun a => IsNearest s.commits heads a.commit ∧ PathsFrom s.commits heads a.commit a.paths)
      (fun e => e = noneFault heads ∧ ¬∃ a, ∀ x ∈ heads, Ancestor s.commits a x) := by
    apply Reads.bind
    refine reads_loadCommits hheads (fun cs hcs => ?_) fun _ he => he.elim
    exact reads_find hg hne hcs (fun a ha hp => ⟨ha, hp⟩) (fun hno => ⟨rfl, hno⟩)
      fun _ he => he.elim
  rcases hreads.run rule with ⟨found, hrun, hfound, hpaths⟩ | ⟨e, hrun, rfl, hno⟩
  · have hcommon : ∃ a, ∀ x ∈ heads, Ancestor s.commits a x := ⟨found.commit, hfound.common⟩
    refine ⟨iff_of_false (fun h => ?_) fun h => h hcommon, fun _ => ⟨found, hrun, hfound, hpaths⟩⟩
    rw [hrun] at h
    cases h
  · exact ⟨iff_of_true hrun hno, fun h => absurd h hno⟩

/-- A head may be below the others: the third commit is the nearest common ancestor of itself and
the two merges. -/
theorem CommonAncestor.run_nearest_braided : ∃ found : CommonAncestor UInt64,
    (loadCommits (OrdSet.ofList [3, 4, 5]).toList >>= find (.ofList [3, 4, 5])).run
      (Store.repository (.sequential 1)) braided = (.ok found, braided) ∧ found.commit = 3 ∧
    IsNearest braided.commits (.ofList [3, 4, 5]) found.commit ∧
    PathsFrom braided.commits (.ofList [3, 4, 5]) found.commit found.paths := by
  have hparent {x : UInt64} (hx : x = 4 ∨ x = 5) : IsParent braided.commits 3 x := by
    rcases hx with rfl | rfl
    · exact ⟨_, _, rfl, rfl⟩
    · exact ⟨_, _, rfl, rfl⟩
  have hcommon : ∀ x ∈ OrdSet.ofList [3, 4, 5], Ancestor braided.commits 3 x := by
    intro x hx
    rw [OrdSet.mem_ofList, List.mem_cons, List.mem_cons, List.mem_singleton] at hx
    rcases hx with rfl | hx
    · exact .refl 3
    · exact (hparent hx).ancestor
  have hstored : ∀ x ∈ OrdSet.ofList [3, 4, 5], ∃ c, braided.commits.get? x = some c :=
    stored_of_contains (by decide)
  obtain ⟨found, hrun, hnearest, hpaths⟩ :=
    (run_nearest (.sequential 1) (by decide) ⟨3, OrdSet.contains_iff_mem.1 rfl⟩ hstored).2
      ⟨3, hcommon⟩
  refine ⟨found, hrun, ?_, hnearest, hpaths⟩
  have hcommit : ((loadCommits (OrdSet.ofList [3, 4, 5]).toList >>= find (.ofList [3, 4, 5])).run
      (Store.repository (.sequential 1)) braided).1.map CommonAncestor.commit = .ok 3 := by
    decide +kernel
  rw [hrun] at hcommit
  exact Except.ok.inj hcommit

/-! ## Searching -/

namespace Search

variable {α τ : Type}

/-- What a search reports of a history: the visits descend and are below the heads, all that is
below them is visited if nothing of it is accepted, and otherwise the greatest accepted commit ends
the search. -/
structure Settles (h : History κ) (heads : OrdSet κ) (acc : Accumulator α)
    (accepts : Commit κ → Option τ) (r : SearchReport κ α τ) : Prop where
  descent : Descent h heads r.visits
  nodup : r.visits.Nodup
  exhausted_iff : r.outcome = .error (exhausted heads) ↔
    ∀ x ∈ heads, ∀ b c, h.Ancestor b x → h.get? b = some c → accepts c = none
  complete : r.outcome = .error (exhausted heads) →
    ∀ b, b ∈ r.visits ↔ ∃ x ∈ heads, h.Ancestor b x
  found : (∃ x ∈ heads, ∃ b c, h.Ancestor b x ∧ h.get? b = some c ∧ accepts c ≠ none) →
    ∃ found, r.outcome = .ok found ∧ h.IsFound heads acc accepts found ∧
      r.visits.getLast? = some found.commit

variable {acc : Accumulator α} {accepts : Commit κ → Option τ} {probe : Probe κ τ}

theorem Surveyed.settles {r : SearchReport κ α τ}
    (hr : Surveyed (s.view fun _ => False) heads acc accepts (exhausted heads) r) :
    Settles s.commits heads acc accepts r := by
  obtain ⟨visits, outcome⟩ := r
  cases outcome with
  | error e =>
      obtain ⟨rfl, hnone⟩ := hr.ends.resolve_left id
      refine ⟨hr.descent, hr.descent.nodup, iff_of_true rfl hnone, fun _ b => ?_, ?_⟩
      · refine ⟨hr.descent.below, fun ⟨x, hx, hb⟩ => ?_⟩
        exact (hr.complete rfl).resolve_left id hx hb
      · rintro ⟨x, hx, b, c, hb, hc, haccept⟩
        exact absurd (hnone x hx b c hb hc) haccept
  | ok found =>
      have hfound : IsFound s.commits heads acc accepts found := hr.ends
      refine ⟨hr.descent, hr.descent.nodup, iff_of_false (fun h => by cases h) fun hnone => ?_,
        fun h => (by cases h), fun _ => ⟨found, rfl, hfound, hr.last rfl⟩⟩
      obtain ⟨c, hc, haccept⟩ := hfound.accepted
      obtain ⟨edges, hroute, -⟩ := hfound.path.route
      rw [hnone _ hfound.path.mem _ c hroute.ancestor hc] at haccept
      cases haccept

theorem Settles.isFound {h : History κ} {r : SearchReport κ α τ} {f : Found κ α τ}
    (hr : Settles h heads acc accepts r) (hok : r.outcome = .ok f) :
    h.IsFound heads acc accepts f := by
  have hsome : ∃ x ∈ heads, ∃ b c, h.Ancestor b x ∧ h.get? b = some c ∧ accepts c ≠ none := by
    by_contra hno
    push Not at hno
    rw [hr.exhausted_iff.2 hno] at hok
    cases hok
  obtain ⟨g, hg, hfound, -⟩ := hr.found hsome
  cases hok.symm.trans hg
  exact hfound

theorem exists_settles (rule : IdRule κ) (hg : Graded s.commits)
    (hheads : ∀ x ∈ heads, ∃ c, s.commits.get? x = some c)
    (hprobe : Judges (s.view fun _ => False) accepts probe) (acc : Accumulator α) :
    ∃ r, (report heads acc probe).run (Store.repository rule) s = (.ok r, s) ∧
      (find heads acc probe).run (Store.repository rule) s = (r.outcome, s) ∧
      Settles s.commits heads acc accepts r := by
  have hreads : (report heads acc probe).Reads (s.view fun _ => False)
      (Surveyed (s.view fun _ => False) heads acc accepts (exhausted heads)) fun _ => False :=
    reads_report hg hheads hprobe
  rcases hreads.run rule with ⟨r, hr, hsurveyed⟩ | ⟨_, -, he⟩
  · refine ⟨r, hr, ?_, hsurveyed.settles⟩
    rw [find, run_bind_ok hr]
    rfl
  · exact he.elim

/-- A search of stored heads visits what lies below them in descending order and settles whether
something of it is accepted; the operations that it keeps of the way to what it has found lead to
the document of the head. -/
theorem run_report (rule : IdRule κ) (hg : Graded s.commits)
    (hheads : ∀ x ∈ heads, ∃ c, s.commits.get? x = some c)
    (hprobe : Judges (s.view fun _ => False) accepts probe) :
    (∀ (α : Type) (acc : Accumulator α), ∃ r,
      (report heads acc probe).run (Store.repository rule) s = (.ok r, s) ∧
      (find heads acc probe).run (Store.repository rule) s = (r.outcome, s) ∧
      Settles s.commits heads acc accepts r) ∧
    ∀ acc, acc = Accumulator.list ∨ acc = Accumulator.squashed → ∀ doc, Sound s.commits doc →
      ∀ found t, (find heads acc probe).run (Store.repository rule) s = (.ok found, t) →
        Document.Leads (doc found.commit) found.path.diffs (doc found.path.child) := by
  refine ⟨fun _ => exists_settles rule hg hheads hprobe, fun acc hacc doc hs found t hfind => ?_⟩
  obtain ⟨r, -, hr, hsettles⟩ := exists_settles rule hg hheads hprobe acc
  have hok : r.outcome = .ok found := congrArg Prod.fst (hr.symm.trans hfind)
  obtain ⟨edges, hroute, hdiffs⟩ := (hsettles.isFound hok).path.route
  rw [hdiffs]
  rcases hacc with rfl | rfl
  · exact hs.leads_fold_list hroute
  · exact hs.leads_fold_squashed hroute

/-- The root is found last. The third commit meets it before the second one does, so the way to it
comes down from there. -/
theorem run_report_braided :
    (∃ r, (report (.ofList [3, 4, 5]) .squashed (isCommit 1)).run
        (Store.repository (.sequential 1)) braided = (.ok r, braided) ∧ r.visits = [5, 4, 3, 2, 1] ∧
      Settles braided.commits (.ofList [3, 4, 5]) .squashed
        (fun c => if c.id = 1 then some () else none) r) ∧
    ∃ found, (find (.ofList [3, 4, 5]) .squashed (isCommit 1)).run
        (Store.repository (.sequential 1)) braided = (.ok found, braided) ∧ found.path.child = 3 ∧
      Document.Leads (braidedDocument found.commit) found.path.diffs
        (braidedDocument found.path.child) := by
  have hstored : ∀ x ∈ OrdSet.ofList [3, 4, 5], ∃ c, braided.commits.get? x = some c :=
    stored_of_contains (by decide)
  have hrun := run_report (.sequential 1) (by decide) hstored (judges_isCommit _ 1)
  obtain ⟨r, hreport, hfind, hsettles⟩ := hrun.1 _ .squashed
  have hvisits : ((report (.ofList [3, 4, 5]) .squashed (isCommit 1)).run
      (Store.repository (.sequential 1)) braided).1.map SearchReport.visits =
        .ok [5, 4, 3, 2, 1] := by decide +kernel
  have hchild : ((find (.ofList [3, 4, 5]) .squashed (isCommit 1)).run
      (Store.repository (.sequential 1)) braided).1.map (fun found => found.path.child) =
        .ok 3 := by
    decide +kernel
  rw [hreport] at hvisits
  refine ⟨⟨r, hreport, Except.ok.inj hvisits, hsettles⟩, ?_⟩
  rw [hfind] at hchild
  cases hok : r.outcome with
  | error e =>
      rw [hok] at hchild
      cases hchild
  | ok found =>
      rw [hok] at hchild hfind
      exact ⟨found, hfind, Except.ok.inj hchild,
        hrun.2 .squashed (.inr rfl) braidedDocument sound_braided found braided hfind⟩

end Search

/-! ## Tips -/

theorem Tips.exists_tips (rule : IdRule κ) (hg : Graded s.commits)
    (hheads : ∀ x ∈ heads, ∃ c, s.commits.get? x = some c) :
    ∃ tips, (withoutAncestors heads).run (Store.repository rule) s = (.ok tips, s) ∧
      ∀ x, x ∈ tips ↔ IsTip s.commits heads x := by
  have hreads : (withoutAncestors heads).Reads (s.view fun _ => False)
      (fun tips => ∀ x, x ∈ tips ↔ IsTip s.commits heads x) fun _ => False :=
    reads_withoutAncestors hg hheads (fun _ htips => htips) fun _ he => he
  exact (hreads.run rule).resolve_right fun ⟨_, _, he⟩ => he

/-- The heads that are left without their ancestors are those that no other head descends from.
They have the same ancestors as all heads, none is an ancestor of another, and nothing can be left
out of them. -/
theorem Tips.run_withoutAncestors (rule : IdRule κ) (hg : Graded s.commits)
    (hheads : ∀ x ∈ heads, ∃ c, s.commits.get? x = some c) :
    ∃ tips, (withoutAncestors heads).run (Store.repository rule) s = (.ok tips, s) ∧
      (∀ x, x ∈ tips ↔ IsTip s.commits heads x) ∧
      (∀ a, (∃ x ∈ tips, Ancestor s.commits a x) ↔ ∃ x ∈ heads, Ancestor s.commits a x) ∧
      (∀ x ∈ tips, ∀ y ∈ tips, Ancestor s.commits x y → x = y) ∧
      (withoutAncestors tips).run (Store.repository rule) s = (.ok tips, s) := by
  obtain ⟨tips, hrun, htips⟩ := exists_tips rule hg hheads
  have hmem {x : κ} (hx : x ∈ tips) : IsTip s.commits heads x := (htips x).1 hx
  have hantichain : ∀ x ∈ tips, ∀ y ∈ tips, Ancestor s.commits x y → x = y := fun x hx y hy hxy =>
    (ancestor_iff_eq_or_proper.1 hxy).resolve_right ((hmem hx).2 y (hmem hy).1)
  refine ⟨tips, hrun, htips, fun a => ⟨?_, ?_⟩, hantichain, ?_⟩
  · rintro ⟨x, hx, ha⟩
    exact ⟨x, (hmem hx).1, ha⟩
  · rintro ⟨x, hx, ha⟩
    obtain ⟨y, hy, hxy⟩ := hg.exists_tip hheads hx
    exact ⟨y, (htips y).2 hy, .trans ha hxy⟩
  · obtain ⟨tips', hrun', htips'⟩ := exists_tips rule hg fun x hx => hheads x (hmem hx).1
    have heq : tips' = tips := OrdSet.ext fun x => by
      rw [htips']
      exact ⟨fun hx => hx.1, fun hx => ⟨hx, fun y hy => (hmem hx).2 y (hmem hy).1⟩⟩
    rw [hrun', heq]

/-- The root is left out though no commit on the way up to the merges is a head. -/
theorem Tips.run_withoutAncestors_braided : ∃ tips,
    (withoutAncestors (.ofList [1, 4, 5])).run (Store.repository (.sequential 1)) braided =
      (.ok tips, braided) ∧ tips = .ofList [4, 5] ∧
    (∀ x, x ∈ tips ↔ IsTip braided.commits (.ofList [1, 4, 5]) x) ∧
    (∀ a, (∃ x ∈ tips, Ancestor braided.commits a x) ↔
      ∃ x ∈ OrdSet.ofList [1, 4, 5], Ancestor braided.commits a x) ∧
    (∀ x ∈ tips, ∀ y ∈ tips, Ancestor braided.commits x y → x = y) ∧
    (withoutAncestors tips).run (Store.repository (.sequential 1)) braided =
      (.ok tips, braided) := by
  have hstored : ∀ x ∈ OrdSet.ofList [1, 4, 5], ∃ c, braided.commits.get? x = some c :=
    stored_of_contains (by decide)
  obtain ⟨tips, hrun, htips⟩ := run_withoutAncestors (.sequential 1) (by decide) hstored
  have hvalue : ((withoutAncestors (.ofList [1, 4, 5])).run (Store.repository (.sequential 1))
      braided).1 = .ok (.ofList [4, 5]) := by decide +kernel
  rw [hrun] at hvalue
  exact ⟨tips, hrun, Except.ok.inj hvalue, htips⟩

end Confluence
