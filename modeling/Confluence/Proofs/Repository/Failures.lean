import Confluence.Proofs.Repository.Batches
import Confluence.Proofs.Repository.Logs
import Confluence.Proofs.Repository.Merging

/-!
# Merges that are cut off

Merging the heads reads the history, folds the operations, builds a commit, stores it, and puts it
in the place of the active heads, and any of this can fail. The heads are changed by the last
request, so a merge that fails leaves them as they were. It leaves the commits as they were too,
unless what failed is the acknowledgement of the push or the change of the heads after it: then the
new merge is stored, and is no head. A merge that succeeds is the only active head, and merging once
more finds nothing to do.
-/

namespace Confluence

open History Program

variable {κ : Type} [CommitId κ]

namespace Store

variable {rule : IdRule κ} {fails : Fault → Prop} {s t : Store κ}
  {u : Store κ × List (Exchange κ)} {e : Fault} {m : Commit κ}

/-- The log of a merge that has been given up after it had been built: the push failed, or else the
change of the heads. -/
inductive Abandoned (m : Commit κ) (e : Fault) : List (Exchange κ) → Prop
  | unacknowledged {reads : List (Exchange κ)} (h : OnlyReads reads) :
      Abandoned m e (reads ++ [⟨.create m.epoch m.parents m.level, .ok m⟩, ⟨.push [m], .error e⟩])
  | headless {reads : List (Exchange κ)} (h : OnlyReads reads) (removed : OrdSet κ) :
      Abandoned m e (reads ++ [⟨.create m.epoch m.parents m.level, .ok m⟩, ⟨.push [m], .ok ()⟩,
        ⟨.updateHeads (.single m.id) removed, .error e⟩])

theorem Abandoned.not_onlyReads {log : List (Exchange κ)} (h : Abandoned m e log) :
    ¬OnlyReads log := by
  have hmem : ⟨.create m.epoch m.parents m.level, .ok m⟩ ∈ log := by
    cases h <;> simp
  exact fun hreads => hreads _ hmem

def EndsWriting (e : Fault) (log : List (Exchange κ)) : Prop :=
  ∃ before r, log = before ++ [⟨r, .error e⟩] ∧ ¬r.IsRead

theorem Abandoned.endsWriting {log : List (Exchange κ)} (h : Abandoned m e log) :
    EndsWriting e log := by
  cases h with
  | @unacknowledged reads =>
      exact ⟨reads ++ [⟨.create m.epoch m.parents m.level, .ok m⟩], .push [m], by simp, id⟩
  | @headless reads _ removed =>
      exact ⟨reads ++ [⟨.create m.epoch m.parents m.level, .ok m⟩, ⟨.push [m], .ok ()⟩],
        .updateHeads (.single m.id) removed, by simp, id⟩

/-- A new merge has been stored and then given up, because the repository has failed. -/
structure Stranded (s : Store κ) (fails : Fault → Prop) (e : Fault)
    (u : Store κ × List (Exchange κ)) (m : Commit κ) : Prop where
  fresh : s.commits.get? m.id = none
  commits : u.1.commits = s.commits.insert m.id m
  failed : fails e
  log : Abandoned m e u.2

structure Unpublished (s : Store κ) (fails : Fault → Prop) (e : Fault)
    (u : Store κ × List (Exchange κ)) : Prop where
  heads : u.1.heads = s.heads
  snapshots : u.1.snapshots = s.snapshots
  commits : u.1.commits = s.commits ∨ ∃ m, s.Stranded fails e u m
  /-- If the failure is not that of a write, the merge has not come further than to read. -/
  cut : EndsWriting e u.2 ∨ OnlyReads u.2
  /-- Then nothing at all is changed. -/
  reading : OnlyReads u.2 → u.1 = s
  /-- Nor is it where the repository has not failed, but a commit is missing or the operations do
  not fit. -/
  walking : ¬fails e → (∃ d, e = .notFound d ∨ e = .transformConflict d) → u.1 = s

theorem unpublished_of_eq (h : u.1 = s) (hcut : EndsWriting e u.2 ∨ OnlyReads u.2) :
    s.Unpublished fails e u where
  heads := by rw [h]
  snapshots := by rw [h]
  commits := .inl (by rw [h])
  cut := hcut
  reading := fun _ => h
  walking := fun _ _ => h

theorem Quiet.unpublished (h : s.Quiet u) : s.Unpublished fails e u :=
  unpublished_of_eq h.eq (.inr h.log)

/-- A merge that the store has refused has only used up an id. -/
theorem unpublished_of_refused (h : u.1 = { s with serial := s.serial + 1 })
    (he : fails e ∨ (∃ text, e = .commitConflict text) ∨ ∃ d, e = .invalidArgument d)
    (hlog : Abandoned m e u.2) : s.Unpublished fails e u where
  heads := by rw [h]
  snapshots := by rw [h]
  commits := .inl (by rw [h])
  cut := .inl hlog.endsWriting
  reading := fun hreads => absurd hreads hlog.not_onlyReads
  walking := by
    rintro hn ⟨d, rfl | rfl⟩
    · rcases he.resolve_left hn with ⟨_, h⟩ | ⟨_, h⟩ <;> cases h
    · rcases he.resolve_left hn with ⟨_, h⟩ | ⟨_, h⟩ <;> cases h

/-- A merge that has been stored stays behind, if it is new. -/
theorem unpublished_of_pushed (hpushed : Pushed { s with serial := s.serial + 1 } [m] u.1)
    (he : fails e) (hlog : Abandoned m e u.2) : s.Unpublished fails e u where
  heads := hpushed.heads
  snapshots := hpushed.snapshots
  commits := by
    cases hget : s.commits.get? m.id with
    | some d => exact .inl (hpushed.commits_eq_self hget)
    | none => exact .inr ⟨m, hget, hpushed.commits_eq_insert hget, he, hlog⟩
  cut := .inl hlog.endsWriting
  reading := fun hreads => absurd hreads hlog.not_onlyReads
  walking := fun hn => absurd he hn

structure Published (s : Store κ) (m : κ) (t : Store κ) : Prop where
  active : t.activeHeads = .single m
  heads : ∀ x, x ∈ t.heads ↔ x = m ∨ x ∈ s.heads ∧ x ∉ s.activeHeads
  stored : ∃ c, t.commits.get? m = some c
  announced : t.announcement.heads = t.activeHeads

theorem published_of_updateHeads {w : Store κ} {x : κ} (hheads : w.heads = s.heads)
    (hold : ∀ y, y ≠ x → w.epochOf y = s.epochOf y)
    (hnew : ∃ y ∈ s.activeHeads, w.epochOf x = s.epochOf y)
    (ht : w.updateHeads (.single x) (s.activeHeads.erase x) = (.ok (), t)) : s.Published x t := by
  have hm := updateHeads_eq_ok ht
  have hmem (y : κ) : y ∈ t.heads ↔ y = x ∨ y ∈ s.heads ∧ y ∉ s.activeHeads := by
    rw [hm.heads, hheads, OrdSet.mem_single, OrdSet.mem_erase]
    by_cases hy : y = x
    · simp [hy]
    · simp [hy]
  have hepoch (y : κ) : t.epochOf y = w.epochOf y := by rw [epochOf, hm.commits, epochOf]
  have hx : x ∈ t.heads := (hmem x).2 (.inl rfl)
  obtain ⟨a, ha, hxa⟩ := hnew
  have hnewest := (mem_activeHeads.1 ha).2
  -- a head that is kept is not active, so its epoch is older
  have holder : ∀ y ∈ t.heads, y ≠ x → t.epochOf y < t.epochOf x := by
    intro y hy hne
    obtain ⟨hys, hya⟩ := ((hmem y).1 hy).resolve_left hne
    rw [hepoch, hepoch, hold y hne, hxa]
    by_contra hge
    exact hya (mem_activeHeads.2 ⟨hys, fun z hz =>
      Nat.le_trans (hnewest z hz) (Nat.le_of_not_lt hge)⟩)
  refine ⟨activeHeads_eq_single hx holder, hmem, ?_, announcement_of_updateHeads ht⟩
  rw [hm.commits]
  exact hm.stored x (OrdSet.mem_single.2 rfl)

end Store

namespace Merge

open Store

variable {rule : IdRule κ} {fails : Fault → Prop} {s t : Store κ} {heads : OrdSet κ}
  {u : Store κ × List (Exchange κ)} {m : Commit κ}

/-! ## What may happen -/

inductive Built (s : Store κ) (heads : OrdSet κ) : Merged κ → Store κ × List (Exchange κ) → Prop
  | existing {x : κ} {u : Store κ × List (Exchange κ)} (mem : x ∈ heads) (quiet : s.Quiet u) :
      Built s heads (.existing x) u
  | created {m : Commit κ} {log : List (Exchange κ)} (epoch : ∃ x ∈ heads, m.epoch = s.epochOf x)
      (reads : OnlyReads log) :
      Built s heads (.created m) ({ s with serial := s.serial + 1 },
        log ++ [⟨.create m.epoch m.parents m.level, .ok m⟩])

inductive Settled (s : Store κ) (heads : OrdSet κ) : κ → Store κ × List (Exchange κ) → Prop
  | existing {x : κ} {u : Store κ × List (Exchange κ)} (mem : x ∈ heads) (quiet : s.Quiet u) :
      Settled s heads x u
  | created {m : Commit κ} {t : Store κ} {log : List (Exchange κ)}
      (epoch : ∃ x ∈ heads, m.epoch = s.epochOf x) (reads : OnlyReads log)
      (pushed : Pushed { s with serial := s.serial + 1 } [m] t) :
      Settled s heads m.id (t,
        log ++ [⟨.create m.epoch m.parents m.level, .ok m⟩, ⟨.push [m], .ok ()⟩])

theorem ensures_build_built (hu : s.Quiet u) :
    (build heads).Ensures (logged rule fails) (Built s heads) (s.Unpublished fails) u := by
  by_cases htwo : 2 ≤ heads.size
  · rw [build_eq_plan htwo]
    apply Ensures.bind
    refine ((inspects_plan s.commits heads).ensures hu).mono ?_
      fun e v hv => hv.unpublished
    rintro p ⟨w, log⟩ ⟨⟨commits, hcommits, hepoch⟩, hw, hlog⟩
    obtain rfl : w = s := hw
    have hnewest : ∃ x ∈ heads, p.epoch = w.epochOf x := by
      obtain ⟨-, x, hx, c, hc, hmax⟩ :=
        isGreatest_foldl hcommits (OrdSet.exists_mem_of_two_le htwo) Commit.epoch
      refine ⟨x, hx, ?_⟩
      rw [hepoch, epochOf, hc]
      exact hmax.symm
    apply Ensures.bind
    refine ensures_ask trivial ?_ ?_
    · rintro c ⟨t, _⟩ ⟨⟨h, -⟩, rfl⟩
      cases h.answer_of_ok
      exact .created hnewest hlog
    · rintro e ⟨t, _⟩ ⟨⟨h, -⟩, rfl⟩
      exact unpublished_of_eq (h.eq_of_error fun _ hc => by cases hc) (.inl ⟨log, _, rfl, id⟩)
  · obtain ⟨_ | ⟨x, _ | ⟨y, l⟩⟩, hl⟩ := heads
    · exact hu.unpublished
    · exact .existing List.mem_cons_self hu
    · simp [OrdSet.size] at htwo

theorem ensures_pushCommit_settled (hb : Built s heads (.created m) u) :
    (pushCommit m).Ensures (logged rule fails) (fun _ v => Settled s heads m.id v)
      (s.Unpublished fails) u := by
  obtain _ | ⟨epoch, reads⟩ := hb
  refine ensures_ask trivial ?_ ?_
  · rintro _ ⟨t, _⟩ ⟨⟨h, -⟩, rfl⟩
    rw [List.append_assoc]
    exact .created epoch reads (push_eq_ok_iff.1 h.answer_of_ok)
  · rintro e ⟨t, _⟩ ⟨⟨h, -⟩, rfl⟩
    rw [List.append_assoc]
    rcases h with h | ⟨e', hf, he, h | ⟨commits, hc, h⟩⟩
    · exact unpublished_of_refused (eq_of_answer_error h)
        (.inr (push_eq_error h)) (.unacknowledged reads)
    · cases he
      exact unpublished_of_refused h (.inl hf) (.unacknowledged reads)
    · cases he
      cases hc
      exact unpublished_of_pushed (push_eq_ok_iff.1 h) hf (.unacknowledged reads)

theorem ensures_merge_settled (hu : s.Quiet u) :
    (merge heads).Ensures (logged rule fails) (Settled s heads) (s.Unpublished fails) u := by
  apply Ensures.bind
  refine (ensures_build_built hu).mono ?_ fun _ _ he => he
  rintro _ v (⟨mem, quiet⟩ | ⟨epoch, reads⟩)
  · exact ensures_pure (.existing mem quiet)
  · apply Ensures.bind
    refine (ensures_pushCommit_settled (.created epoch reads)).mono ?_ fun _ _ he => he
    exact fun _ v hv => ensures_pure hv

theorem ensures_mergeCommit_unpublished (hu : s.Quiet u) :
    (mergeCommit heads).Ensures (logged rule fails) (fun _ _ => True) (s.Unpublished fails) u := by
  apply Ensures.bind
  refine (ensures_build_built hu).mono ?_ fun _ _ he => he
  rintro _ v (@⟨x, _, mem, quiet⟩ | ⟨epoch, reads⟩)
  · have hload : (loadCommit x).Inspects s.commits fun _ => True :=
      inspects_ask trivial fun _ _ => trivial
    exact (hload.ensures quiet).mono (fun _ _ _ => trivial) fun _ _ he => he.unpublished
  · apply Ensures.bind
    refine (ensures_pushCommit_settled (.created epoch reads)).mono ?_ fun _ _ he => he
    exact fun _ v hv => ensures_pure trivial

theorem ensures_updateHeads_published {x : κ} (hx : Settled s heads x u)
    (hactive : ∀ y ∈ heads, y ∈ s.activeHeads) :
    (updateHeads (.single x) (s.activeHeads.erase x)).Ensures (logged rule fails)
      (fun _ v => s.Published x v.1) (s.Unpublished fails) u := by
  refine ensures_ask trivial ?_ ?_
  · rintro _ ⟨t, _⟩ ⟨⟨h, -⟩, rfl⟩
    have ht := h.answer_of_ok
    cases hx with
    | existing mem quiet =>
        rw [quiet.eq] at ht
        exact published_of_updateHeads rfl (fun _ _ => rfl) ⟨x, hactive x mem, rfl⟩ ht
    | created epoch reads pushed =>
        obtain ⟨y, hy, hepoch⟩ := epoch
        exact published_of_updateHeads pushed.heads (fun z hz => pushed.epochOf_of_ne hz)
          ⟨y, hactive y hy, pushed.epochOf_self.trans hepoch⟩ ht
  · rintro e ⟨t, _⟩ ⟨⟨h, -⟩, rfl⟩
    have ht : t = u.1 := h.eq_of_error fun _ hc => by cases hc
    cases hx with
    | existing mem quiet =>
        exact unpublished_of_eq (ht.trans quiet.eq) (.inl ⟨u.2, _, rfl, id⟩)
    | @created m w log epoch reads pushed =>
        obtain rfl : t = w := ht
        obtain ⟨c, hc, -⟩ := pushed.exists_entry List.mem_cons_self
        have hfails : fails e :=
          h.fails_of_updateHeads fun y hy => OrdSet.mem_single.1 hy ▸ ⟨c, hc⟩
        rw [List.append_assoc]
        exact unpublished_of_pushed pushed hfails (.headless reads _)

theorem ensures_mergeHeads_published (rule : IdRule κ) (fails : Fault → Prop) (s : Store κ) :
    mergeHeads.Ensures (logged rule fails) (fun x v => s.Published x v.1) (s.Unpublished fails)
      (s, []) := by
  have hstep {a : Except Fault (OrdSet κ)} {v : Store κ × List (Exchange κ)}
      (hv : (logged rule fails).responds .activeHeads (s, []) a v) : s.Quiet v :=
    (quiet_nil s).next (r := .activeHeads) trivial hv
  apply Ensures.bind
  refine ensures_ask trivial ?_ fun e v hv => (hstep hv).unpublished
  intro active v hv
  have hquiet := hstep hv
  obtain rfl : active = s.activeHeads := by
    cases hv.1.1.answer_of_ok
    rfl
  apply Ensures.bind
  refine ((Tips.inspects_withoutAncestors _ _).ensures hquiet).mono ?_
    fun _ _ he => he.unpublished
  rintro tips w ⟨htips, hw⟩
  apply Ensures.bind
  refine (ensures_merge_settled hw).mono ?_ fun _ _ he => he
  intro x w hx
  apply Ensures.bind
  exact (ensures_updateHeads_published hx htips).mono (fun _ _ hp => ensures_pure hp)
    fun _ _ he => he

/-- Merging the active heads once more finds the merge, and changes nothing. -/
theorem run_mergeHeads_again (rule : IdRule κ) {x : κ} (h : s.Published x t) :
    mergeHeads.run (Store.repository rule) t =
      (.ok x, { t with headUpdates := t.headUpdates + 1 }) := by
  have hx : x ∈ t.heads := (h.heads x).2 (.inl rfl)
  have hadded : ∀ y ∈ OrdSet.single x, y ∈ t.heads := fun y hy => OrdSet.mem_single.1 hy ▸ hx
  have hagain : t.updateHeads (.single x) ∅ =
      (.ok (), { t with headUpdates := t.headUpdates + 1 }) :=
    updateHeads_again (fun y hy => OrdSet.mem_single.1 hy ▸ h.stored) hadded h.announced
  have herase : (OrdSet.single x).erase x = ∅ := by
    refine OrdSet.ext fun y => ?_
    rw [OrdSet.mem_erase, OrdSet.mem_single]
    exact iff_of_false (fun hy => hy.2 hy.1) (OrdSet.not_mem_empty y)
  have hactive : activeHeads.run (Store.repository rule) t = (.ok (.single x), t) := by
    rw [← h.active]
    rfl
  have htips : (Tips.withoutAncestors (.single x)).run (Store.repository rule) t =
      (.ok (.single x), t) := rfl
  have hmerge : (merge (.single x)).run (Store.repository rule) t = (.ok x, t) := rfl
  have hmove : (updateHeads (.single x) ((OrdSet.single x).erase x)).run (Store.repository rule) t =
      (.ok (), { t with headUpdates := t.headUpdates + 1 }) := by
    change t.answer rule (.updateHeads _ _) = _
    rw [herase, answer, hagain]
  rw [mergeHeads, run_bind_ok hactive, run_bind_ok htips, run_bind_ok hmerge, run_bind_ok hmove]
  rfl

/-- Merging is all or nothing for whoever looks at the heads. Whichever request fails, in whatever
state, a merge that ends with a fault changes neither the heads nor the snapshots, and stores no
commit except the new merge, which stays behind if the push is not acknowledged or the heads are not
changed. A merge of the active heads that succeeds has taken their place, next to the heads of older
epochs, and merging again changes nothing. -/
theorem publishes_or_keeps (rule : IdRule κ) (fails : Fault → Prop) (s : Store κ)
    (heads : OrdSet κ) :
    (∀ e u, (merge heads).Runs (logged rule fails) (s, []) (.error e) u → s.Unpublished fails e u) ∧
      (∀ e u, (mergeCommit heads).Runs (logged rule fails) (s, []) (.error e) u →
        s.Unpublished fails e u) ∧
      (∀ e u, mergeHeads.Runs (logged rule fails) (s, []) (.error e) u →
        s.Unpublished fails e u) ∧
      ∀ x t, mergeHeads.run (Store.repository rule) s = (.ok x, t) →
        t.activeHeads = .single x ∧
          (∀ y, y ∈ t.heads ↔ y = x ∨ y ∈ s.heads ∧ y ∉ s.activeHeads) ∧
          mergeHeads.run (Store.repository rule) t =
            (.ok x, { t with headUpdates := t.headUpdates + 1 }) := by
  refine ⟨fun e u h => (ensures_merge_settled (quiet_nil s)).of_runs h,
    fun e u h => (ensures_mergeCommit_unpublished (quiet_nil s)).of_runs h,
    fun e u h => (ensures_mergeHeads_published rule fails s).of_runs h, fun x t h => ?_⟩
  have hrun := runs_of_run rule (fun _ => False) mergeHeads s
  rw [h] at hrun
  obtain ⟨log, hlogged⟩ := hrun.exists_logged []
  have hp : s.Published x t := (ensures_mergeHeads_published rule _ s).of_runs hlogged
  exact ⟨hp.active, hp.heads, run_mergeHeads_again rule hp⟩

def contested : Store UInt64 where
  commits := .ofList ([⟨1, ∅, 1, 0, none⟩, ⟨2, ∅, 1, 1, none⟩,
    ⟨3, .single 2 [Document.edit ∅ "k" (some "a")], 2, 1, none⟩,
    ⟨4, .single 2 [Document.edit ∅ "k" (some "b")], 2, 1, none⟩].map fun c => (c.id, c))
  heads := .ofList [1, 3, 4]
  serial := 4

theorem publishes_or_keeps_contested :
    (∃ u, (merge (.ofList [3, 4])).Runs (logged (.sequential 1) (Faulty.Injects true))
        (contested, []) (.error Injection.lostAck.fault) u ∧ u.1.commits.size = 5 ∧
      contested.Unpublished (Faulty.Injects true) Injection.lostAck.fault u) ∧
    (∃ u, (mergeCommit (.ofList [3, 4])).Runs (logged (.sequential 1) (Faulty.Injects true))
        (contested, []) (.error Injection.rejectPush.fault) u ∧ u.1.commits.size = 4 ∧
      contested.Unpublished (Faulty.Injects true) Injection.rejectPush.fault u) ∧
    (∃ u, mergeHeads.Runs (logged (.sequential 1) (Faulty.Injects true))
        (contested, []) (.error Injection.updateHeads.fault) u ∧ u.1.commits.size = 5 ∧
      contested.Unpublished (Faulty.Injects true) Injection.updateHeads.fault u) ∧
    (∃ t, mergeHeads.run (Store.repository (.sequential 1)) contested = (.ok 5, t) ∧
      t.activeHeads = .single 5 ∧ 1 ∈ t.heads ∧
      mergeHeads.run (Store.repository (.sequential 1)) t =
        (.ok 5, { t with headUpdates := t.headUpdates + 1 })) := by
  obtain ⟨hmerge, hcommit, hheads, hok⟩ :=
    publishes_or_keeps (.sequential 1) (Faulty.Injects true) contested (.ofList [3, 4])
  refine ⟨?_, ?_, ?_, ?_⟩
  · have hlost : ∃ t, (merge (.ofList [3, 4])).run (Faulty.repository ⟨0, 100, 0, 0, 0⟩
        (Store.repository (.sequential 1))) ⟨contested, ⟨0⟩, {}, true⟩ =
          (.error Injection.lostAck.fault, t) ∧ t.inner.commits.size = 5 := ⟨_, rfl, rfl⟩
    obtain ⟨t, hrun, hsize⟩ := hlost
    obtain ⟨log, hlogged⟩ := Faulty.exists_logged hrun
    exact ⟨_, hlogged, hsize, hmerge _ _ hlogged⟩
  · have hrejected : ∃ t, (mergeCommit (.ofList [3, 4])).run (Faulty.repository ⟨100, 0, 0, 0, 0⟩
        (Store.repository (.sequential 1))) ⟨contested, ⟨0⟩, {}, true⟩ =
          (.error Injection.rejectPush.fault, t) ∧ t.inner.commits.size = 4 := ⟨_, rfl, rfl⟩
    obtain ⟨t, hrun, hsize⟩ := hrejected
    obtain ⟨log, hlogged⟩ := Faulty.exists_logged hrun
    exact ⟨_, hlogged, hsize, hcommit _ _ hlogged⟩
  · have hheadless : ∃ t, mergeHeads.run (Faulty.repository ⟨0, 0, 0, 100, 0⟩
        (Store.repository (.sequential 1))) ⟨contested, ⟨0⟩, {}, true⟩ =
          (.error Injection.updateHeads.fault, t) ∧ t.inner.commits.size = 5 := ⟨_, rfl, rfl⟩
    obtain ⟨t, hrun, hsize⟩ := hheadless
    obtain ⟨log, hlogged⟩ := Faulty.exists_logged hrun
    exact ⟨_, hlogged, hsize, hheads _ _ hlogged⟩
  · have hrun : ∃ t, mergeHeads.run (Store.repository (.sequential 1)) contested = (.ok 5, t) :=
      ⟨_, rfl⟩
    have holder : 1 ∈ contested.heads ∧ 1 ∉ contested.activeHeads := by
      rw [← OrdSet.contains_iff_mem, ← OrdSet.contains_iff_mem]
      decide +kernel
    obtain ⟨t, hrun⟩ := hrun
    obtain ⟨hactive, hkept, hagain⟩ := hok _ _ hrun
    exact ⟨t, hrun, hactive, (hkept 1).2 (.inr holder), hagain⟩

end Merge

end Confluence
