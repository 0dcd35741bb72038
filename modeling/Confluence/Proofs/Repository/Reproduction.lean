import Confluence.Proofs.Repository.Levels
import Confluence.Proofs.Repository.Lockstep
import Confluence.Proofs.Repository.Merging

/-!
# Merging elsewhere and again

A merge depends on the heads with their ancestors and on nothing else. Two stores that hold the same
content there plan the same merge, or fail alike, and where ids are computed from contents they give
it the same id. Merging again finds the commit stored already and changes nothing. That the id of
the merge is not taken by other content rests on two things: every stored commit has the id that its
content gives it, and the digest tells the text of the merge from the texts of the stored commits.
-/

namespace Confluence

open Program

variable {κ : Type} [CommitId κ]

/-- Two histories hold the same content under an id, up to timestamps, or nothing. -/
def History.Alike (h g : History κ) (id : κ) : Prop :=
  (h.get? id).map Commit.untimed = (g.get? id).map Commit.untimed

namespace Merge

open History

section

variable {rule : IdRule κ} {s : Store κ} {heads : OrdSet κ} {p : Plan κ}

def Plan.built (rule : IdRule κ) (s : Store κ) (p : Plan κ) : Commit κ :=
  ⟨rule.assign s.serial p.epoch p.edges p.level, p.edges, p.level, p.epoch, none⟩

theorem Plan.built_eq (h : rule.Steady) (p : Plan κ) (s t : Store κ) :
    p.built rule t = p.built rule s := by
  rw [built, h t.serial s.serial, ← built]

theorem Plan.addressed_built (p : Plan Digest) (s : Store Digest) :
    (p.built .content s).Addressed := by
  rw [Commit.Addressed, Commit.contentText, built, IdRule.content]

theorem run_build (htwo : 2 ≤ heads.size)
    (hplan : (plan heads).run (Store.repository rule) s = (.ok p, s)) :
    ((build heads).run (Store.repository rule) s).1 = .ok (.created (p.built rule s)) := by
  rw [build_eq_plan htwo, run_bind_ok hplan]
  rfl

theorem run_merge_of_error {e : Fault} (htwo : 2 ≤ heads.size)
    (hplan : (plan heads).run (Store.repository rule) s = (.error e, s)) :
    (merge heads).run (Store.repository rule) s = (.error e, s) := by
  rw [merge_eq_plan htwo, run_bind_error hplan]

/-- A planned merge is stored under an id that is free or its own. -/
theorem run_merge_of_plan (htwo : 2 ≤ heads.size)
    (hplan : (plan heads).run (Store.repository rule) s = (.ok p, s))
    (hedges : ∀ x e, p.edges.get? x = some e → ∃ c, s.commits.get? x = some c ∧ c.level < p.level)
    (hsame : ∀ d, s.commits.get? (p.built rule s).id = some d →
      d.sameContent (p.built rule s) = true) :
    ∃ t, (merge heads).run (Store.repository rule) s = (.ok (p.built rule s).id, t) ∧
      Store.Pushed { s with serial := s.serial + 1 } [p.built rule s] t := by
  have hparents : ∀ x ∈ (p.built rule s).parentIds,
      ∃ q, s.commits.get? x = some q ∧ q.level < (p.built rule s).level := by
    intro x hx
    obtain ⟨e, he⟩ := OrdMap.mem_keys.1 hx
    exact hedges x e he
  obtain ⟨t, ht, hpushed⟩ :=
    Store.push_singleton (s := { s with serial := s.serial + 1 }) hsame hparents
  refine ⟨t, ?_, hpushed⟩
  have hpush : (pushCommit (p.built rule s)).run (Store.repository rule)
      { s with serial := s.serial + 1 } = (.ok (), t) := ht
  have hcreate : (createFrom p.epoch p.edges p.level).run (Store.repository rule) s =
      (.ok (p.built rule s), { s with serial := s.serial + 1 }) := rfl
  rw [merge_eq_plan htwo, run_bind_ok hplan, run_bind_ok hcreate, run_bind_ok hpush]
  rfl

theorem run_plan_of_extends {t : Store κ} (hs : Filed s.commits) (ht : Filed t.commits)
    (he : Extends s.commits t.commits)
    (hplan : (plan heads).run (Store.repository rule) s = (.ok p, s)) :
    (plan heads).run (Store.repository rule) t = (.ok p, t) := by
  have hm : Mirrors False s.commits t.commits fun _ => True :=
    ⟨fun _ _ _ => trivial, fun {id c} _ hc => ⟨c, he id c hc, rfl⟩, fun h => h.elim⟩
  have hfollows : Follows False rule s t _ (plan heads) (plan heads) :=
    follows_plan hm hs ht fun _ _ => trivial
  rcases hfollows with ⟨q, _, hq, hrun, rfl, -⟩ | ⟨e, he, -⟩
  · cases hplan.symm.trans hq
    exact hrun
  · cases hplan.symm.trans he

theorem run_merge_twice (hs : Filed s.commits) (hsteady : rule.Steady) (htwo : 2 ≤ heads.size)
    (hplan : (plan heads).run (Store.repository rule) s = (.ok p, s))
    (hedges : ∀ x e, p.edges.get? x = some e → ∃ c, s.commits.get? x = some c ∧ c.level < p.level)
    (hsame : ∀ d, s.commits.get? (p.built rule s).id = some d →
      d.sameContent (p.built rule s) = true) :
    ∃ t u, (merge heads).run (Store.repository rule) s = (.ok (p.built rule s).id, t) ∧
      (merge heads).run (Store.repository rule) t = (.ok (p.built rule s).id, u) ∧
      u.commits = t.commits ∧
      ∃ d, t.commits.get? (p.built rule s).id = some d ∧ d.untimed = p.built rule s := by
  obtain ⟨t, hrun, hpushed⟩ := run_merge_of_plan htwo hplan hedges hsame
  have he : Extends s.commits t.commits := hpushed.history_extends
  have hbuilt := p.built_eq hsteady s t
  obtain ⟨d, hd, hcontent⟩ :=
    hpushed.exists_sameContent List.mem_cons_self (List.nodup_singleton _)
  obtain ⟨u, hagain, hpushed'⟩ := run_merge_of_plan htwo
    (run_plan_of_extends hs (hpushed.filed hs) he hplan)
    (fun x e hx => by
      obtain ⟨c, hc, hlt⟩ := hedges x e hx
      exact ⟨c, he x c hc, hlt⟩)
    (fun b hb => by
      rw [hbuilt] at hb ⊢
      cases hd.symm.trans hb
      exact hcontent)
  rw [hbuilt] at hagain hpushed'
  exact ⟨t, u, hrun, hagain, hpushed'.commits_eq_self hd, d, hd,
    Commit.sameContent_iff_untimed.1 hcontent⟩

/-- Fewer than two heads are not looked up. -/
theorem run_merge_of_size_le_one (rule : IdRule κ) (h : heads.size ≤ 1) :
    ∃ o, (∀ s, (merge heads).run (Store.repository rule) s = (o, s)) ∧
      ∀ id, o = .ok id → id ∈ heads := by
  obtain ⟨_ | ⟨x, _ | ⟨y, l⟩⟩, hl⟩ := heads
  · exact ⟨_, fun _ => rfl, fun id hid => by cases hid⟩
  · refine ⟨_, fun _ => rfl, fun id hid => ?_⟩
    cases hid
    exact List.mem_cons_self
  · simp [OrdSet.size] at h

end

/-! ## Two stores -/

section

variable {s t : Store Digest} {heads : OrdSet Digest}

theorem Plan.sameContent_built (p : Plan Digest) (s : Store Digest) (ht : t.Addressed)
    (hfree : ∀ id d, t.commits.get? id = some d →
      Digest.ofText d.contentText = Digest.ofText (p.built .content s).contentText →
        d.contentText = (p.built .content s).contentText) (d : Commit Digest)
    (hd : t.commits.get? (p.built .content s).id = some d) :
    d.sameContent (p.built .content s) = true := by
  obtain ⟨hid, haddressed⟩ := ht _ d hd
  exact haddressed.sameContent (p.addressed_built s) hid (hfree _ d hd)

/-- Where two stores hold the same below the heads, each mirrors the other there. -/
theorem mirrors_of_alike {κ : Type} [CommitId κ] {h g : History κ} {heads : OrdSet κ}
    (hagree : ∀ x ∈ heads, ∀ a, h.Ancestor a x → h.Alike g a) :
    Mirrors True h g fun a => ∃ x ∈ heads, h.Ancestor a x := by
  refine ⟨?_, ?_, ?_⟩
  · rintro id c p ⟨x, hx, ha⟩ hc hp
    exact ⟨x, hx, .trans ((isParent_iff hc).2 hp).ancestor ha⟩
  · rintro id c ⟨x, hx, ha⟩ hc
    have halike := hagree x hx id ha
    rw [Alike, hc, Option.map_some] at halike
    exact Option.map_eq_some_iff.1 halike.symm
  · rintro - id ⟨x, hx, ha⟩ hn
    have halike := hagree x hx id ha
    rw [Alike, hn, Option.map_none] at halike
    exact Option.map_eq_none_iff.1 halike.symm

/-- Merging is a function of the heads with their ancestors: two stores that hold the same content
there come to the same commit or the same fault, whatever else they hold, and merging again comes to
it once more and stores nothing. -/
theorem run_merge_alike (hs : s.Addressed) (ht : t.Addressed)
    (hagree : ∀ x ∈ heads, ∀ a, Ancestor s.commits a x → Alike s.commits t.commits a)
    (hfree : ∀ c, ((build heads).run (Store.repository .content) s).1 = .ok (.created c) →
      ∀ id d, s.commits.get? id = some d ∨ t.commits.get? id = some d →
        Digest.ofText d.contentText = Digest.ofText c.contentText →
          d.contentText = c.contentText) :
    ∃ o s' t', (merge heads).run (Store.repository .content) s = (o, s') ∧
      (merge heads).run (Store.repository .content) t = (o, t') ∧
      (∀ id, o = .ok id → Alike s'.commits t'.commits id ∧
        (2 ≤ heads.size → ∃ c, s'.commits.get? id = some c)) ∧
      (∃ u, (merge heads).run (Store.repository .content) s' = (o, u) ∧ u.commits = s'.commits) ∧
      ∃ u, (merge heads).run (Store.repository .content) t' = (o, u) ∧ u.commits = t'.commits := by
  have hsf : Filed s.commits := fun id c hc => (hs id c hc).1
  have htf : Filed t.commits := fun id c hc => (ht id c hc).1
  by_cases htwo : 2 ≤ heads.size
  · have hm := mirrors_of_alike hagree
    have hfollows : Follows True .content s t _ (plan heads) (plan heads) :=
      follows_plan hm hsf htf fun x hx => ⟨x, hx, .refl x⟩
    rcases hfollows with ⟨_, p, hplan, hplan', rfl, hedges⟩ | ⟨e, hplan, hplan'⟩
    · have hfree' := hfree _ (run_build htwo hplan)
      have hbuilt : p.built .content t = p.built .content s :=
        p.built_eq IdRule.content_steady s t
      obtain ⟨s', u, hrun, hagain, hu, d, hd, hcontent⟩ :=
        run_merge_twice hsf IdRule.content_steady htwo hplan (fun x e hx => (hedges x e hx).2)
          (p.sameContent_built s hs fun id d hd => hfree' id d (.inl hd))
      obtain ⟨t', u', hrun', hagain', hu', d', hd', hcontent'⟩ :=
        run_merge_twice htf IdRule.content_steady htwo hplan'
          (fun x e hx => by
            obtain ⟨hmem, c, hc, hlt⟩ := hedges x e hx
            obtain ⟨b, hb, hbc⟩ := hm.alike ⟨x, hmem, .refl x⟩ hc
            exact ⟨b, hb, by rwa [← Commit.untimed_level b, hbc, Commit.untimed_level]⟩)
          (hbuilt ▸ p.sameContent_built s ht fun id d hd => hfree' id d (.inr hd))
      rw [hbuilt] at hrun' hagain' hd' hcontent'
      refine ⟨_, s', t', hrun, hrun', fun id hid => ?_, ⟨u, hagain, hu⟩, u', hagain', hu'⟩
      cases hid
      refine ⟨?_, fun _ => ⟨d, hd⟩⟩
      rw [Alike, hd, hd', Option.map_some, Option.map_some, hcontent, hcontent']
    · have hrun := run_merge_of_error htwo hplan
      have hrun' := run_merge_of_error htwo (hplan' trivial)
      exact ⟨_, s, t, hrun, hrun', fun id hid => (by cases hid), ⟨s, hrun, rfl⟩, t, hrun', rfl⟩
  · have hone : heads.size ≤ 1 := by omega
    obtain ⟨o, hrun, hmem⟩ := run_merge_of_size_le_one IdRule.content hone
    refine ⟨o, s, t, hrun s, hrun t, fun id hid => ⟨?_, fun h => absurd h htwo⟩, ⟨s, hrun s, rfl⟩,
      t, hrun t, rfl⟩
    exact hagree id (hmem id hid) id (.refl id)

/-! ## Two replicas -/

def later : Commit Digest where
  id := ⟨#v[252, 7, 144, 252, 61, 131, 80, 169, 127, 136, 4, 96, 182, 109, 51, 125, 27, 200, 140,
    109, 214, 86, 141, 68, 195, 31, 212, 96, 9, 48, 220, 200]⟩
  parents := ∅
  level := 1
  epoch := 1

/-- A store that has the two children from elsewhere, and more. -/
def there : Store Digest where
  commits := .ofList
    ([later, { right with timestamp := some 7 }, left, base].map fun c => (c.id, c))
  heads := .single later.id
  snapshots := .single later.id []

theorem toList_there : there.commits.toList =
    [{ right with timestamp := some 7 }, base, left, later].map fun c => (c.id, c) := by
  decide +kernel

theorem get?_there {c : Commit Digest}
    (hc : c ∈ [{ right with timestamp := some 7 }, base, left, later]) :
    there.commits.get? c.id = some c := by
  rw [OrdMap.get?_eq_some_iff, toList_there]
  exact List.mem_map_of_mem hc

theorem addressed_there : there.Addressed := by
  intro id c hc
  rw [OrdMap.get?_eq_some_iff, toList_there, List.mem_map] at hc
  obtain ⟨b, hb, he⟩ := hc
  cases he
  have hlater : later.Addressed := by decide +kernel
  have hreceived : Commit.Addressed { right with timestamp := some 7 } :=
    addressed_of_mem (c := right) (by simp)
  simp only [List.mem_cons, List.not_mem_nil, or_false] at hb
  rcases hb with rfl | rfl | rfl | rfl
  · exact ⟨rfl, hreceived⟩
  · exact ⟨rfl, addressed_of_mem (by simp)⟩
  · exact ⟨rfl, addressed_of_mem (by simp)⟩
  · exact ⟨rfl, hlater⟩

theorem alike_there {c : Commit Digest} {id : Digest} (hc : here.commits.get? id = some c) :
    Alike here.commits there.commits id := by
  obtain ⟨rfl, hmem⟩ := mem_of_fork hc
  rw [Alike, hc]
  simp only [List.mem_cons, List.not_mem_nil, or_false] at hmem
  rcases hmem with rfl | rfl | rfl
  · rw [get?_there (c := base) (by simp)]
  · rw [get?_there (c := left) (by simp)]
  · rw [get?_there (c := { right with timestamp := some 7 }) (by simp)]
    rfl

theorem joined_not_there {id : Digest} {b : Commit Digest} (hb : there.commits.get? id = some b) :
    b.id ≠ joined.id := by
  rw [OrdMap.get?_eq_some_iff, toList_there, List.mem_map] at hb
  obtain ⟨c, hc, he⟩ := hb
  cases he
  exact (by decide : ∀ c ∈ [{ right with timestamp := some 7 }, base, left, later],
    c.id ≠ joined.id) b hc

theorem built_joined (s : Store Digest) :
    Plan.built .content s ⟨joined.epoch, joined.parents, joined.level⟩ = joined := by
  have hid : joined.id = IdRule.content.assign s.serial joined.epoch joined.parents joined.level :=
    addressed_of_mem (by simp)
  rw [Plan.built, ← hid]
  rfl

theorem run_merge_here : ∃ t, (merge here.heads).run (Store.repository .content) here =
    (.ok joined.id, t) ∧ t.commits.get? joined.id = some joined := by
  have hnew : here.commits.get? joined.id = none := by
    refine Option.eq_none_iff_forall_ne_some.2 fun b hb => ?_
    exact joined_not_stored hb (mem_of_fork hb).1.symm
  have hparents := plans_here.2.parents_level stored_here (c := joined) rfl rfl
  obtain ⟨t, hrun, hpushed⟩ := run_merge_of_plan two_le_here plans_here.1
    (fun x e he => hparents x (OrdMap.mem_keys.2 ⟨e, he⟩)) fun d hd => by
      rw [built_joined, hnew] at hd
      cases hd
  rw [built_joined] at hrun hpushed
  refine ⟨t, hrun, ?_⟩
  rw [hpushed.get?_singleton, hnew, Option.none_or, if_pos rfl]

/-- Both replicas store the merge, although the other one has more commits, other heads, a snapshot
and a timestamp. -/
theorem run_merge_alike_replicas :
    ∃ s' t', (merge here.heads).run (Store.repository .content) here = (.ok joined.id, s') ∧
      (merge here.heads).run (Store.repository .content) there = (.ok joined.id, t') ∧
      s'.commits.get? joined.id = some joined ∧ Alike s'.commits t'.commits joined.id ∧
      (∃ u, (merge here.heads).run (Store.repository .content) s' = (.ok joined.id, u) ∧
        u.commits = s'.commits) ∧
      ∃ u, (merge here.heads).run (Store.repository .content) t' = (.ok joined.id, u) ∧
        u.commits = t'.commits := by
  obtain ⟨doc, hs⟩ := forks_here.exists_sound
  obtain ⟨o, s', t', hrun, hrun', halike, hagain, hagain'⟩ :=
    run_merge_alike addressed_here addressed_there
      (fun x (hx : x ∈ here.heads) a ha => by
        obtain ⟨b, hb⟩ := stored_here x hx
        obtain ⟨a', ha'⟩ := hs.toGraded.exists_of_ancestor ha hb
        exact alike_there ha')
      fun c hc id d hd htext => by
        rw [run_build two_le_here plans_here.1, built_joined] at hc
        cases hc
        have hid {s : Store Digest} (hs : s.Addressed) (hd : s.commits.get? id = some d) :
            d.id = joined.id :=
          (hs id d hd).2.trans (htext.trans (addressed_of_mem (c := joined) (by simp)).symm)
        rcases hd with hd | hd
        · exact absurd (hid addressed_here hd) (joined_not_stored hd)
        · exact absurd (hid addressed_there hd) (joined_not_there hd)
  obtain ⟨t, hmerge, hstored⟩ := run_merge_here
  cases hrun.symm.trans hmerge
  exact ⟨s', t', hrun, hrun', hstored, (halike _ rfl).1, hagain, hagain'⟩

end

end Merge

end Confluence
