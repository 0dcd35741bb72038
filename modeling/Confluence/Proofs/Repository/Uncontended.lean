import Confluence.Proofs.Repository.Growth

/-!
# Writes that nothing contends with

A write can be lost although every other write to its key is older. A merge compares its heads with
one commit, their nearest common ancestor. A head that has inherited a value older than the write,
but not that of the common ancestor, looks like a change of its own: its value is taken if it is the
greater one, or if the write has brought back the value of the common ancestor. This is the only way
to lose such a write, and what takes its place was left by a write below it.
-/

namespace Confluence

open History Operation

variable {κ : Type} [CommitId κ]

/-- Whether some operation of a list changes a key, if only to the value it has. -/
def Operation.touches (l : List Operation) (k : String) : Bool :=
  l.any fun o => o.changes.contains k

def Commit.writes (c : Commit κ) (k : String) : Bool :=
  c.parents.size == 1 && c.parents.values.any fun edge => touches edge k

theorem Commit.writes_single {c : Commit κ} {p : κ} {edge : List Operation} (k : String)
    (hc : c.parents = .single p edge) : c.writes k = touches edge k := by
  rw [writes, hc]
  simp [OrdMap.single, OrdMap.size, OrdMap.values]

theorem Document.Leads.get?_of_not_touches {d e : Document} {l : List Operation} {k : String}
    (h : Leads d l e) (hk : touches l k = false) : e.get? k = d.get? k := by
  have hfirst : firstChange? l k = none := by
    refine List.findSome?_eq_none_iff.2 fun o ho => ?_
    have ho' := List.any_eq_false.1 hk o ho
    simpa [OrdMap.contains] using ho'
  have hnet : (net l).get? k = none := by
    have hprev := map_prev_net l k
    rw [hfirst] at hprev
    exact Option.map_eq_none_iff.1 hprev
  obtain ⟨-, hafter⟩ := leads_iff_net.1 h k
  rw [hnet, Change.after_none] at hafter
  exact hafter.symm

namespace History

variable {h : History κ} {doc : κ → Document} {d : κ} {k : String} {v : Option String}

def Writes (h : History κ) (w : κ) (k : String) : Prop :=
  ∃ c, h.get? w = some c ∧ c.writes k = true

/-- A commit joins descendants of `d`, which has left a value at a key, with a commit that does not
descend from `d`, whose value is not that of the nearest common ancestor, and which has the better
claim: the value that `d` has left is that of the common ancestor, or it is lower. -/
def Overruled (h : History κ) (doc : κ → Document) (d : κ) (k : String) (v : Option String)
    (m : κ) : Prop :=
  ∃ c a, h.get? m = some c ∧ h.IsNearest (.ofList c.parentIds) a ∧
    (∃ x ∈ c.parentIds, h.Ancestor d x) ∧
    ∃ y ∈ c.parentIds, ¬h.Ancestor d y ∧ (doc y).get? k ≠ (doc a).get? k ∧
      (v = (doc a).get? k ∨ prevails ((doc y).get? k) v = true)

theorem Regular.get?_ne_of_overruled (hr : h.Regular doc) {m : κ}
    (hover : h.Overruled doc d k v m) : (doc m).get? k ≠ v := by
  intro hv
  obtain ⟨c, b, hm, hb, ⟨x, hx, hdx⟩, y, hy, hdy, hne, hwins⟩ := hover
  cases hr.kind m c hm with
  | root hroot _ =>
      rw [Commit.parentIds, hroot] at hy
      cases hy
  | edit p edge hone =>
      -- a single head cannot both descend from the write and not do so
      rw [(mem_parentIds_single hone).1 hx] at hdx
      rw [(mem_parentIds_single hone).1 hy] at hdy
      exact hdy hdx
  | merge a hnearest _ hvalues =>
      have hba : b = a := by
        refine hb.unique hr.toGraded ⟨y, OrdSet.mem_ofList.2 hy⟩ (fun x hx => ?_) hnearest
        exact hr.exists_of_mem_parentIds hm x (OrdSet.mem_ofList.1 hx)
      subst hba
      have hside : (doc y).get? k ∈ c.parentIds.map fun x => (doc x).get? k :=
        List.mem_map.2 ⟨y, hy, rfl⟩
      obtain ⟨-, hvne, hmax⟩ := (hvalues k).changed ⟨_, hside, hne⟩
      rw [hv] at hvne hmax
      have hy : prevails ((doc y).get? k) v = true := hwins.resolve_left hvne
      rcases hmax _ hside hne with heq | hlow
      · rw [heq, prevails_irrefl] at hy
        cases hy
      · rw [prevails_asymm hlow] at hy
        cases hy

theorem get?_eq_of_not_overruled {m a : κ} {c : Commit κ}
    (hm : h.get? m = some c) (hnearest : h.IsNearest (.ofList c.parentIds) a)
    (hvalues : Reconciled ((doc a).get? k) (c.parentIds.map fun x => (doc x).get? k)
      ((doc m).get? k))
    (habove : ∃ x ∈ c.parentIds, h.Ancestor d x)
    (hkeep : ∀ x ∈ c.parentIds, h.Ancestor d x → (doc x).get? k = v)
    (hno : ¬h.Overruled doc d k v m) : (doc m).get? k = v := by
  have hother : ∀ y ∈ c.parentIds, (doc y).get? k = v ∨ (doc y).get? k = (doc a).get? k ∨
      v ≠ (doc a).get? k ∧ prevails ((doc y).get? k) v = false := by
    intro y hy
    by_cases hd : h.Ancestor d y
    · exact .inl (hkeep y hy hd)
    · by_cases hbase : (doc y).get? k = (doc a).get? k
      · exact .inr (.inl hbase)
      · refine .inr (.inr ⟨fun hva => hno ?_, ?_⟩)
        · exact ⟨c, a, hm, hnearest, habove, y, hy, hd, hbase, .inl hva⟩
        · by_contra hp
          exact hno ⟨c, a, hm, hnearest, habove, y, hy, hd, hbase, .inr (by simpa using hp)⟩
  obtain ⟨x, hx, hdx⟩ := habove
  by_cases hva : v = (doc a).get? k
  · rw [hva]
    refine hvalues.unchanged fun s hs => ?_
    obtain ⟨y, hy, rfl⟩ := List.mem_map.1 hs
    rcases hother y hy with heq | heq | ⟨hne, -⟩
    · exact heq.trans hva
    · exact heq
    · exact absurd hva hne
  · have hside : v ∈ c.parentIds.map fun x => (doc x).get? k :=
      List.mem_map.2 ⟨x, hx, hkeep x hx hdx⟩
    obtain ⟨hmem, hne, hmax⟩ := hvalues.changed ⟨v, hside, hva⟩
    rcases hmax v hside hva with heq | hwins
    · exact heq.symm
    · obtain ⟨y, hy, heq⟩ := List.mem_map.1 hmem
      change (doc y).get? k = (doc m).get? k at heq
      rw [← heq] at hne hwins ⊢
      rcases hother y hy with hyv | hya | ⟨-, hlow⟩
      · exact hyv
      · exact absurd hya hne
      · rw [hwins] at hlow
        cases hlow

/-- A value was left by a write below, or the key has never been written. -/
theorem Regular.exists_write (hr : h.Regular doc) {m : κ} {c : Commit κ}
    (hm : h.get? m = some c) (k : String) :
    (doc m).get? k = none ∨
      ∃ w, h.Writes w k ∧ h.Ancestor w m ∧ (doc w).get? k = (doc m).get? k := by
  refine hr.toGraded.induction_on (P := fun m => (doc m).get? k = none ∨
    ∃ w, h.Writes w k ∧ h.Ancestor w m ∧ (doc w).get? k = (doc m).get? k) (fun m c hm ih => ?_) hm
  have hbelow {p : κ} (hp : h.Ancestor p m) (hval : (doc p).get? k = (doc m).get? k) (hne : p ≠ m) :
      (doc m).get? k = none ∨
        ∃ w, h.Writes w k ∧ h.Ancestor w m ∧ (doc w).get? k = (doc m).get? k := by
    rcases ih p ((ancestor_iff_eq_or_proper.1 hp).resolve_left hne) with hnone | ⟨w, hw, hwp, hwv⟩
    · exact .inl (hval ▸ hnone)
    · exact .inr ⟨w, hw, hwp.trans hp, hwv.trans hval⟩
  have hparent {p : κ} (hp : p ∈ c.parentIds) (hval : (doc p).get? k = (doc m).get? k) :
      (doc m).get? k = none ∨
        ∃ w, h.Writes w k ∧ h.Ancestor w m ∧ (doc w).get? k = (doc m).get? k := by
    have hpm : h.IsParent p m := (isParent_iff hm).2 hp
    refine hbelow hpm.ancestor hval ?_
    rintro rfl
    exact Nat.lt_irrefl _ (hr.parent_level hpm hm hm)
  cases hr.kind m c hm with
  | root _ hdoc => exact .inl (by rw [hdoc]; rfl)
  | edit p edge hone =>
      have hedge : c.parents.get? p = some edge := by
        rw [hone, OrdMap.get?_single, if_pos rfl]
      by_cases ht : touches edge k = true
      · exact .inr ⟨m, ⟨c, hm, (c.writes_single k hone).trans ht⟩, .refl m, rfl⟩
      · refine hparent (OrdMap.mem_keys.2 ⟨edge, hedge⟩) ?_
        exact ((hr.leads hm hedge).get?_of_not_touches (by simpa using ht)).symm
  | merge a hnearest hsome hvalues =>
      obtain ⟨x, hx⟩ := hsome
      by_cases hall : ∀ s ∈ c.parentIds.map fun x => (doc x).get? k, s = (doc a).get? k
      · have hxv : (doc x).get? k = (doc a).get? k := hall _ (List.mem_map.2 ⟨x, hx, rfl⟩)
        exact hparent hx (hxv.trans ((hvalues k).unchanged hall).symm)
      · push Not at hall
        obtain ⟨hmem, -, -⟩ := (hvalues k).changed hall
        obtain ⟨y, hy, heq⟩ := List.mem_map.1 hmem
        exact hparent hy heq

/-- As long as no merge overrules it, a write with which no other contends keeps its value. -/
theorem Regular.get?_eq_of_uncontended (hr : h.Regular doc) (hv : (doc d).get? k = v)
    (hd : ∃ b, h.get? d = some b) (hothers : ∀ w, w ≠ d → h.Writes w k → h.Ancestor w d) {m : κ}
    {c : Commit κ} (hm : h.get? m = some c) (hdm : h.Ancestor d m)
    (hno : ∀ x, h.Ancestor x m → ¬h.Overruled doc d k v x) : (doc m).get? k = v := by
  refine hr.toGraded.induction_on (P := fun m => h.Ancestor d m →
    (∀ x, h.Ancestor x m → ¬h.Overruled doc d k v x) → (doc m).get? k = v)
    (fun m c hm ih hdm hno => ?_) hm hdm hno
  by_cases hmd : d = m
  · exact hmd ▸ hv
  have hkeep : ∀ p ∈ c.parentIds, h.Ancestor d p → (doc p).get? k = v := by
    intro p hp hdp
    have hpm : h.IsParent p m := (isParent_iff hm).2 hp
    exact ih p (.single hpm) hdp fun x hx => hno x (hx.trans hpm.ancestor)
  obtain ⟨p, hdp, hpm⟩ := hdm.cases_parent.resolve_left hmd
  have hp : p ∈ c.parentIds := (isParent_iff hm).1 hpm
  cases hr.kind m c hm with
  | root hroot _ =>
      obtain ⟨edge, hedge⟩ := OrdMap.mem_keys.1 hp
      rw [hroot] at hedge
      cases hedge
  | edit q edge hone =>
      obtain ⟨edge', hedge⟩ := OrdMap.mem_keys.1 hp
      have hedge' : edge' = edge := by
        rw [hone, OrdMap.get?_single] at hedge
        split at hedge <;> cases hedge
        rfl
      have ht : touches edge k = false := by
        by_contra ht
        obtain ⟨b, hb⟩ := hd
        have hw : h.Writes m k := ⟨c, hm, (c.writes_single k hone).trans (by simpa using ht)⟩
        exact hmd (hr.antisymm hb hdm (hothers m (fun he => hmd he.symm) hw))
      rw [(hr.leads hm hedge).get?_of_not_touches (hedge' ▸ ht)]
      exact hkeep p hp hdp
  | merge a hnearest hsome hvalues =>
      exact get?_eq_of_not_overruled hm hnearest (hvalues k) ⟨p, hp, hdp⟩ hkeep (hno m (.refl m))

/-- Every uncontended write keeps its value for good. -/
def KeepsUncontended (h : History κ) (doc : κ → Document) : Prop :=
  ∀ d k v, (∃ c p edge, h.get? d = some c ∧ c.parents = .single p edge) → (doc d).get? k = v →
    (∀ w, w ≠ d → h.Writes w k → h.Ancestor w d) →
    ∀ m, h.Ancestor d m → (doc m).get? k = v

end History

namespace Store

/-- In a grown history a write with which no other contends keeps its value above it as long as no
merge overrules it. A merge that does has another value, which was left by a write below the one
that is overruled, or none. -/
theorem Grown.uncontended {rule : IdRule κ} {s : Store κ} {doc : κ → Document}
    (hs : Grown rule s doc) {d : κ} {k : String} {v : Option String}
    (hd : ∃ c, s.commits.get? d = some c) (hv : (doc d).get? k = v)
    (hothers : ∀ w, w ≠ d → Writes s.commits w k → Ancestor s.commits w d) :
    (∀ m, Ancestor s.commits d m →
      (∀ x, Ancestor s.commits x m → ¬Overruled s.commits doc d k v x) → (doc m).get? k = v) ∧
    ∀ m, Overruled s.commits doc d k v m → (doc m).get? k ≠ v ∧ ((doc m).get? k = none ∨
      ∃ w, Writes s.commits w k ∧ ProperAncestor s.commits w d ∧
        (doc w).get? k = (doc m).get? k) := by
  have hr := hs.regular
  constructor
  · intro m hdm hno
    obtain ⟨b, hb⟩ := hd
    by_cases hmd : d = m
    · exact hmd ▸ hv
    obtain ⟨p, -, c, edge, hm, -⟩ := hdm.cases_parent.resolve_left hmd
    exact hr.get?_eq_of_uncontended hv ⟨b, hb⟩ hothers hm hdm hno
  · intro m hover
    have hne := hr.get?_ne_of_overruled hover
    refine ⟨hne, ?_⟩
    obtain ⟨c, -, hm, -⟩ := hover
    rcases hr.exists_write hm k with hnone | ⟨w, hw, -, hwv⟩
    · exact .inl hnone
    · have hwd : w ≠ d := by
        rintro rfl
        exact hne (hwv.symm.trans hv)
      have hanc := hothers w hwd hw
      exact .inr ⟨w, hw, (ancestor_iff_eq_or_proper.1 hanc).resolve_left hwd, hwv⟩

/-! A root, a commit that sets a key, one that changes it afterwards, and two that set other keys,
one of them beside the change and one beside both. Merging the last three brings back the first
value. -/

def beginning : Commit UInt64 := ⟨1, ∅, 1, 0, none⟩

def setting (id parent : UInt64) (level : Nat) (k : String) (prev next : Option String) :
    Commit UInt64 :=
  ⟨id, .single parent [.single k ⟨prev, next⟩], level, 0, none⟩

def inherited : List (Commit UInt64) :=
  [beginning, setting 2 1 2 "k" none (some "z"), setting 3 2 3 "k" (some "z") (some "a"),
    setting 4 2 3 "e" none (some "x"), setting 5 1 2 "f" none (some "x")]

def pushing (s : Store UInt64) (c : Commit UInt64) : Store UInt64 := (s.push [c]).2

theorem push_eq_pushing {s : Store UInt64} {c : Commit UInt64} (h : (s.push [c]).1 = .ok ()) :
    s.push [c] = (.ok (), pushing s c) := Prod.ext h rfl

def unmerged : Store UInt64 := { inherited.foldl pushing empty with serial := 5 }

def merged : Store UInt64 :=
  ((Merge.merge (.ofList [3, 4, 5])).run (repository (.sequential 1)) unmerged).2

def reverting : List Operation :=
  [⟨.ofList [("e", ⟨none, some "x"⟩), ("f", ⟨none, some "x"⟩), ("k", ⟨some "a", some "z"⟩)]⟩]

def joined : Commit UInt64 where
  id := 6
  parents := .ofList [(3, reverting), (4, [.single "f" ⟨none, some "x"⟩]),
    (5, [⟨.ofList [("e", ⟨none, some "x"⟩), ("k", ⟨none, some "z"⟩)]⟩])]
  level := 4
  epoch := 0

def documents : UInt64 → Document :=
  let root : UInt64 → Document := fun _ => ∅
  let set := Function.update root 2 ((root 1).applyAll [.single "k" ⟨none, some "z"⟩])
  let changed := Function.update set 3 ((set 2).applyAll [.single "k" ⟨some "z", some "a"⟩])
  let beside := Function.update changed 4 ((changed 2).applyAll [.single "e" ⟨none, some "x"⟩])
  let both := Function.update beside 5 ((beside 1).applyAll [.single "f" ⟨none, some "x"⟩])
  Function.update both 6 ((both 3).applyAll reverting)

theorem run_inherited :
    (Merge.merge (.ofList [3, 4, 5])).run (repository (.sequential 1)) unmerged =
      (.ok 6, merged) := by
  have h :
      ((Merge.merge (.ofList [3, 4, 5])).run (repository (.sequential 1)) unmerged).1.toOption =
        some (6 : UInt64) := by decide +kernel
  refine Prod.ext ?_ rfl
  cases hrun : ((Merge.merge (.ofList [3, 4, 5])).run (repository (.sequential 1)) unmerged).1 with
  | error e =>
      rw [hrun] at h
      cases h
  | ok x =>
      rw [hrun] at h
      cases h
      rfl

theorem grown_inherited : Grown (.sequential 1) merged documents := by
  have hedit (d : Document) (k : String) (v : Option String) : d.Anchors [d.edit k v] :=
    (Document.Leads.edit d k v).anchors
  have hroot : Grown (.sequential 1) (pushing empty beginning) fun _ => ∅ :=
    .root rfl (push_eq_pushing (by decide))
  have hset := hroot.edit (c := setting 2 1 2 "k" none (some "z")) rfl ⟨beginning, rfl⟩
    (hedit ∅ "k" (some "z")) rfl (push_eq_pushing (by decide))
  have hchanged := hset.edit (c := setting 3 2 3 "k" (some "z") (some "a")) rfl
    ⟨setting 2 1 2 "k" none (some "z"), rfl⟩ (hedit _ "k" (some "a")) rfl
    (push_eq_pushing (by decide))
  have hbeside := hchanged.edit (c := setting 4 2 3 "e" none (some "x")) rfl
    ⟨setting 2 1 2 "k" none (some "z"), rfl⟩ (hedit _ "e" (some "x")) rfl
    (push_eq_pushing (by decide))
  have hboth := hbeside.edit (c := setting 5 1 2 "f" none (some "x")) rfl ⟨beginning, rfl⟩
    (hedit _ "f" (some "x")) rfl (push_eq_pushing (by decide))
  have hstored (x : UInt64) (hx : x ∈ OrdSet.ofList [3, 4, 5]) :
      ∃ c, unmerged.commits.get? x = some c := by
    have hall : [3, 4, 5].all unmerged.commits.contains = true := by decide
    exact OrdMap.contains_iff.1 (List.all_eq_true.1 hall x (OrdSet.mem_ofList.1 hx))
  have hjoined : merged.commits.get? 6 = some joined := by decide +kernel
  have hunmerged : Grown (.sequential 1) unmerged _ := hboth.skip 5
  exact hunmerged.merge (m := joined) (x := 3) hstored run_inherited hjoined
    (OrdSet.mem_ofList.2 List.mem_cons_self) rfl

/-- The edit that is lost: only a commit below it touches the key as well. -/
theorem uncontended_inherited (w : UInt64) (hw : w ≠ 3) (h : Writes merged.commits w "k") :
    Ancestor merged.commits w 3 := by
  have hlist : ∀ e ∈ merged.commits.toList, e.2.writes "k" = true → e.1 = 2 ∨ e.1 = 3 := by
    decide +kernel
  obtain ⟨c, hc, hk⟩ := h
  have hw2 : w = 2 := (hlist (w, c) (OrdMap.get?_eq_some_iff.1 hc) hk).resolve_right hw
  have hchange : merged.commits.get? 3 = some (setting 3 2 3 "k" (some "z") (some "a")) := by
    decide +kernel
  rw [hw2]
  exact IsParent.ancestor ⟨_, _, hchange, rfl⟩

theorem uncontended_merged :
    (∀ m, Ancestor merged.commits 3 m →
      (∀ x, Ancestor merged.commits x m → ¬Overruled merged.commits documents 3 "k" (some "a") x) →
      (documents m).get? "k" = some "a") ∧
    ∀ m, Overruled merged.commits documents 3 "k" (some "a") m →
      (documents m).get? "k" ≠ some "a" ∧ ((documents m).get? "k" = none ∨
        ∃ w, Writes merged.commits w "k" ∧ ProperAncestor merged.commits w 3 ∧
          (documents w).get? "k" = (documents m).get? "k") := by
  have hchange : merged.commits.get? 3 = some (setting 3 2 3 "k" (some "z") (some "a")) := by
    decide +kernel
  exact grown_inherited.uncontended ⟨_, hchange⟩ (by decide +kernel) uncontended_inherited

/-- The merge does not keep the uncontended edit. -/
theorem not_keepsUncontended : Grown (.sequential 1) merged documents ∧
    ¬KeepsUncontended merged.commits documents := by
  refine ⟨grown_inherited, fun h => ?_⟩
  have hchange : merged.commits.get? 3 = some (setting 3 2 3 "k" (some "z") (some "a")) := by
    decide +kernel
  have hjoined : merged.commits.get? 6 = some joined := by decide +kernel
  have habove : Ancestor merged.commits 3 6 := IsParent.ancestor ⟨joined, reverting, hjoined, rfl⟩
  have hkept : (documents 6).get? "k" = some "a" :=
    h 3 "k" (some "a") ⟨_, _, _, hchange, rfl⟩ (by decide +kernel) uncontended_inherited 6 habove
  have hlost : (documents 6).get? "k" = some "z" := by decide +kernel
  rw [hlost] at hkept
  exact absurd hkept (by decide)

end Store

end Confluence
