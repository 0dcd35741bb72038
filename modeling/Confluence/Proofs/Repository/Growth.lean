import Confluence.Proofs.Repository.Merging

/-!
# Histories that grow by edits and merges

A history starts with a root and grows by commits on one parent, whose edges are anchored at the
parent's document, and by merges of any stored commits. It is sound and has one root, and a commit
of it is the root, an edit or a merge, which takes its values from its heads and their nearest
common ancestor.
-/

namespace Confluence

open History Program

variable {κ : Type} [CommitId κ]

namespace History

variable {h g : History κ} {doc doc' : κ → Document} {heads : OrdSet κ}

/-- What a commit with a given document is: the root of the history, an edit of one parent, or a
merge. -/
inductive Kind (h : History κ) (doc : κ → Document) (c : Commit κ) (d : Document) : Prop where
  | root (hparents : c.parents = ∅) (hdoc : d = ∅)
  | edit (p : κ) (edge : List Operation) (hparents : c.parents = .single p edge)
  | merge (a : κ) (hnearest : h.IsNearest (.ofList c.parentIds) a) (hsome : ∃ x, x ∈ c.parentIds)
    (hvalues : ∀ k, Reconciled ((doc a).get? k) (c.parentIds.map fun x => (doc x).get? k)
      (d.get? k))

structure Regular (h : History κ) (doc : κ → Document) : Prop extends Sound h doc where
  rooted : ∃ r, ∀ id c, h.get? id = some c → h.Ancestor r id
  kind : ∀ id c, h.get? id = some c → Kind h doc c (doc id)

theorem Kind.grow {c : Commit κ} {d : Document} (hk : Kind h doc c d) (hg : h.Graded)
    (he : Extends h g) (hparents : ∀ x ∈ c.parentIds, ∃ b, h.get? x = some b)
    (hd : ∀ x b, h.get? x = some b → doc' x = doc x) : Kind g doc' c d := by
  cases hk with
  | root hroot hdoc => exact .root hroot hdoc
  | edit p edge hone => exact .edit p edge hone
  | merge a hnearest hsome hvalues =>
      have hheads : ∀ x ∈ OrdSet.ofList c.parentIds, ∃ b, h.get? x = some b := fun x hx =>
        hparents x (OrdSet.mem_ofList.1 hx)
      obtain ⟨y, hy⟩ := hsome
      have hne : ∃ x, x ∈ OrdSet.ofList c.parentIds := ⟨y, OrdSet.mem_ofList.2 hy⟩
      obtain ⟨cy, hcy⟩ := hparents y hy
      obtain ⟨b, hb⟩ :=
        hg.exists_of_ancestor (hnearest.common y (OrdSet.mem_ofList.2 hy)) hcy
      refine .merge a (hnearest.grow hg he hne hheads) ⟨y, hy⟩ fun k => ?_
      have hmap : (c.parentIds.map fun x => (doc' x).get? k) =
          c.parentIds.map fun x => (doc x).get? k := by
        refine List.map_congr_left fun x hx => ?_
        obtain ⟨cx, hcx⟩ := hparents x hx
        rw [hd x cx hcx]
      rw [hd a b hb, hmap]
      exact hvalues k

theorem Graded.exists_of_mem_parentIds (hg : h.Graded) {id : κ} {c : Commit κ}
    (hc : h.get? id = some c) : ∀ x ∈ c.parentIds, ∃ b, h.get? x = some b :=
  fun _ hx => hg.exists_of_isParent ((isParent_iff hc).2 hx)

theorem Regular.congr (hr : h.Regular doc)
    (hd : ∀ id c, h.get? id = some c → doc' id = doc id) : h.Regular doc' := by
  refine { hr.toSound.congr hd with rooted := hr.rooted, kind := fun id c hc => ?_ }
  rw [hd id c hc]
  exact (hr.kind id c hc).grow hr.toGraded (.refl h) (hr.exists_of_mem_parentIds hc) hd

theorem Regular.grow (hr : h.Regular doc) (he : Extends h g) (hs : g.Sound doc')
    (hd : ∀ x b, h.get? x = some b → doc' x = doc x) {m : Commit κ}
    (hothers : ∀ x, x ≠ m.id → g.get? x = h.get? x) (hm : g.get? m.id = some m)
    (hkind : Kind h doc m (doc' m.id)) (hsome : ∃ x, x ∈ m.parentIds)
    (hparents : ∀ x ∈ m.parentIds, ∃ b, h.get? x = some b) : g.Regular doc' := by
  refine { hs with rooted := ?_, kind := fun id c hc => ?_ }
  · obtain ⟨r, hroot⟩ := hr.rooted
    refine ⟨r, fun id c hc => ?_⟩
    by_cases hid : id = m.id
    · obtain ⟨p, hp⟩ := hsome
      obtain ⟨b, hb⟩ := hparents p hp
      rw [hid]
      exact (he.ancestor (hroot p b hb)).trans ((isParent_iff hm).2 hp).ancestor
    · rw [hothers id hid] at hc
      exact he.ancestor (hroot id c hc)
  · by_cases hid : id = m.id
    · rw [hid, hm] at hc
      cases hc
      rw [hid]
      exact hkind.grow hr.toGraded he hparents hd
    · rw [hothers id hid] at hc
      rw [hd id c hc]
      exact (hr.kind id c hc).grow hr.toGraded he (hr.exists_of_mem_parentIds hc) hd

end History

/-! ## Growth -/

namespace Store

/-- The stores that come about from a root by edits and merges, with the documents of the commits.
Ids may also be given to commits that are never stored. -/
inductive Grown (rule : IdRule κ) : Store κ → (κ → Document) → Prop where
  | root {s : Store κ} {c : Commit κ} (hc : c.parents = ∅) (hs : empty.push [c] = (.ok (), s)) :
      Grown rule s fun _ => ∅
  | edit {s t : Store κ} {doc : κ → Document} {c : Commit κ} {p : κ} {edge : List Operation}
      (hs : Grown rule s doc) (hc : c.parents = .single p edge)
      (hp : ∃ q, s.commits.get? p = some q) (hanchors : (doc p).Anchors edge)
      (hnew : s.commits.get? c.id = none) (ht : s.push [c] = (.ok (), t)) :
      Grown rule t (Function.update doc c.id ((doc p).applyAll edge))
  | merge {s t : Store κ} {doc : κ → Document} {heads : OrdSet κ} {m : Commit κ} {x : κ}
      {edge : List Operation} (hs : Grown rule s doc)
      (hheads : ∀ x ∈ heads, ∃ c, s.commits.get? x = some c)
      (hrun : (Merge.merge heads).run (repository rule) s = (.ok m.id, t))
      (hm : t.commits.get? m.id = some m) (hx : x ∈ heads) (he : m.parents.get? x = some edge) :
      Grown rule t (Function.update doc m.id ((doc x).applyAll edge))
  | skip {s : Store κ} {doc : κ → Document} (n : Nat) (hs : Grown rule s doc) :
      Grown rule { s with serial := n } doc

/-- Merging one head stores nothing, and a commit is not its own parent. -/
theorem two_le_of_run_merge {rule : IdRule κ} {s t : Store κ} {doc : κ → Document}
    {heads : OrdSet κ} {m : Commit κ} {x : κ} {edge : List Operation} (hs : Sound s.commits doc)
    (hrun : (Merge.merge heads).run (repository rule) s = (.ok m.id, t))
    (hm : t.commits.get? m.id = some m) (hx : x ∈ heads) (he : m.parents.get? x = some edge) :
    2 ≤ heads.size := by
  by_contra hlt
  have hone : heads = .single x := OrdSet.single_of_size_le_one (by omega) hx
  rw [hone, Merge.merge_single] at hrun
  cases hrun
  obtain ⟨q, hq, hlt⟩ := hs.parent hm he
  cases hq.symm.trans hm
  exact Nat.lt_irrefl _ hlt

theorem regular_root {s : Store κ} {c : Commit κ} (hc : c.parents = ∅)
    (hs : empty.push [c] = (.ok (), s)) : Regular s.commits fun _ => ∅ := by
  rw [(push_eq_ok_iff.1 hs).commits_eq_insert rfl]
  have hget {id : κ} {b : Commit κ}
      (hb : (OrdMap.insert (∅ : History κ) c.id c).get? id = some b) : id = c.id ∧ b = c := by
    rw [OrdMap.get?_insert] at hb
    split at hb
    next hid =>
      cases hb
      exact ⟨hid, rfl⟩
    next => cases hb
  have hsound : Sound (OrdMap.insert (∅ : History κ) c.id c) fun _ => ∅ := sound_single c hc
  refine { hsound with rooted := ⟨c.id, fun id b hb => ?_⟩, kind := fun id b hb => ?_ }
  · obtain ⟨rfl, -⟩ := hget hb
    exact .refl _
  · obtain ⟨-, rfl⟩ := hget hb
    exact .root hc rfl

theorem regular_edit {s t : Store κ} {doc : κ → Document} {c : Commit κ} {p : κ}
    {edge : List Operation} (hr : Regular s.commits doc) (hc : c.parents = .single p edge)
    (hp : ∃ q, s.commits.get? p = some q) (hanchors : (doc p).Anchors edge)
    (hnew : s.commits.get? c.id = none) (ht : s.push [c] = (.ok (), t)) :
    Regular t.commits (Function.update doc c.id ((doc p).applyAll edge)) := by
  obtain ⟨q, hq⟩ := hp
  have hpushed := push_eq_ok_iff.1 ht
  have hcommits := hpushed.commits_eq_insert hnew
  have hpc : p ∈ c.parentIds := (mem_parentIds_single hc).2 rfl
  have hlt : q.level < c.level := by
    refine hpushed.above c List.mem_cons_self p hpc q.level ?_
    rw [levelOf?, hq, Option.map_some, Option.some_or]
  have hstored : t.commits.get? c.id = some c := by
    rw [hcommits, OrdMap.get?_insert, if_pos rfl]
  have hparents : ∀ x ∈ c.parentIds, ∃ b, s.commits.get? x = some b := by
    intro x hx
    rw [(mem_parentIds_single hc).1 hx]
    exact ⟨q, hq⟩
  refine hr.grow hpushed.history_extends ?_ (fun x b hb => ?_) (fun x hx => ?_) hstored
    (.edit p edge hc) ⟨p, hpc⟩ hparents
  · rw [hcommits]
    exact hr.insert_child c hnew hc hq hlt hanchors
  · refine Function.update_of_ne ?_ ..
    rintro rfl
    rw [hnew] at hb
    cases hb
  · rw [hcommits, OrdMap.get?_insert, if_neg hx]

theorem regular_merge {rule : IdRule κ} {s t : Store κ} {doc : κ → Document} {heads : OrdSet κ}
    {m : Commit κ} {x : κ} {edge : List Operation} (hr : Regular s.commits doc)
    (hheads : ∀ x ∈ heads, ∃ c, s.commits.get? x = some c)
    (hrun : (Merge.merge heads).run (repository rule) s = (.ok m.id, t))
    (hm : t.commits.get? m.id = some m) (hx : x ∈ heads) (he : m.parents.get? x = some edge) :
    Regular t.commits (Function.update doc m.id ((doc x).applyAll edge)) := by
  have htwo := two_le_of_run_merge hr.toSound hrun hm hx he
  obtain ⟨m', doc', hid, hmerged⟩ := Merge.merged_of_run hr.toSound htwo hheads hrun
  have hm' : m' = m := Option.some.inj (hmerged.stored.symm.trans (hid ▸ hm))
  subst hm'
  -- the merge's own document is what its edges come to
  have hdoc : ∀ id c, t.commits.get? id = some c →
      Function.update doc m'.id ((doc x).applyAll edge) id = doc' id := by
    intro id c hc
    by_cases hidm : id = m'.id
    · rw [hidm, Function.update_self]
      exact (hmerged.isMerge.edges x edge he).applyAll_eq
    · rw [Function.update_of_ne hidm]
      rw [hmerged.others id hidm] at hc
      exact (hmerged.agrees id c hc).symm
  have hheads_eq : heads = .ofList m'.parentIds := by
    refine OrdSet.ext fun y => ?_
    rw [OrdSet.mem_ofList, hmerged.isMerge.parents]
  obtain ⟨a, hnearest, hvalues⟩ := hmerged.isMerge.values
  have hmx : x ∈ m'.parentIds := (hmerged.isMerge.parents x).2 hx
  have hkind : Kind s.commits doc m' (doc' m'.id) := by
    refine .merge a (hheads_eq ▸ hnearest) ⟨x, hmx⟩ fun k => (hvalues k).congr fun v => ?_
    simp only [List.mem_map, hmerged.isMerge.parents]
    exact Iff.rfl
  have hregular : Regular t.commits doc' :=
    hr.grow hmerged.history hmerged.sound hmerged.agrees hmerged.others hm hkind ⟨x, hmx⟩
      fun y hy => hheads y ((hmerged.isMerge.parents y).1 hy)
  exact hregular.congr hdoc

theorem Grown.regular {rule : IdRule κ} {s : Store κ} {doc : κ → Document}
    (h : Grown rule s doc) : Regular s.commits doc := by
  induction h with
  | root hc hs => exact regular_root hc hs
  | edit _ hc hp hanchors hnew ht ih => exact regular_edit ih hc hp hanchors hnew ht
  | merge _ hheads hrun hm hx he ih => exact regular_merge ih hheads hrun hm hx he
  | skip _ _ ih => exact ih

end Store

end Confluence
