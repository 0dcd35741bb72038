import Confluence.Proofs.Repository.Levels
import Confluence.Proofs.Repository.Plans
import Confluence.Repository.Watch

/-!
# The views of the heads

A store tells its heads in several ways: it announces the active ones, it answers with them, and a
client can load all heads and keep those of the newest epoch. They agree as long as heads are
stored, commits are held under their own ids and the last announcement is that of the active heads.
Every request keeps this, and one that fails leaves the whole store alone.
-/

namespace Confluence

open History Program

variable {κ : Type} [CommitId κ]

namespace Store

variable {s t : Store κ}

/-! ## What every request keeps -/

structure Orderly (s : Store κ) : Prop where
  filed : Filed s.commits
  heads : ∀ x ∈ s.heads, ∃ c, s.commits.get? x = some c
  snapshots : ∀ x diffs, s.snapshots.get? x = some diffs → ∃ c, s.commits.get? x = some c
  announced : s.announcement.heads = s.activeHeads

theorem orderly_empty : (empty : Store κ).Orderly where
  filed := by
    rintro id c ⟨⟩
  heads := fun x hx => absurd hx (OrdSet.not_mem_empty x)
  snapshots := by
    rintro x diffs ⟨⟩
  announced := rfl

theorem activeHeads_congr (hheads : t.heads = s.heads)
    (hepoch : ∀ x ∈ s.heads, t.epochOf x = s.epochOf x) : t.activeHeads = s.activeHeads := by
  have hnewest : ∀ (l : List κ) (n : Nat), (∀ x ∈ l, t.epochOf x = s.epochOf x) →
      l.foldl (fun e x => max e (t.epochOf x)) n = l.foldl (fun e x => max e (s.epochOf x)) n :=
    fun l n hl => List.foldl_ext _ _ n fun e x hx => by rw [hl x hx]
  unfold activeHeads
  rw [hheads, hnewest _ 0 hepoch]
  refine OrdSet.ext fun x => ?_
  simp only [OrdSet.mem_filter]
  exact and_congr_right fun hx => by rw [hepoch x hx]

theorem activeHeads_announce (s : Store κ) : s.announce.activeHeads = s.activeHeads :=
  activeHeads_congr (heads_announce s) fun x _ => by rw [epochOf, commits_announce, epochOf]

theorem announcement_announce (s : Store κ) : s.announce.announcement.heads = s.activeHeads := by
  unfold announce
  split
  next h => exact h.symm
  next => rfl

theorem announcement_of_updateHeads {added removed : OrdSet κ}
    (h : s.updateHeads added removed = (.ok (), t)) : t.announcement.heads = t.activeHeads := by
  unfold updateHeads at h
  split at h
  next => cases h
  next =>
    cases h
    rw [announcement_announce, activeHeads_announce]

namespace Orderly

theorem push (h : s.Orderly) {batch : List (Commit κ)} (hp : s.Pushed batch t) : t.Orderly := by
  have hext := hp.history_extends
  have hactive : t.activeHeads = s.activeHeads := by
    refine activeHeads_congr hp.heads fun x hx => ?_
    obtain ⟨c, hc⟩ := h.heads x hx
    rw [epochOf, epochOf, hext x c hc, hc]
  constructor
  · exact hp.filed h.filed
  · intro x hx
    obtain ⟨c, hc⟩ := h.heads x (hp.heads ▸ hx)
    exact ⟨c, hext x c hc⟩
  · intro x diffs hx
    obtain ⟨c, hc⟩ := h.snapshots x diffs (hp.snapshots ▸ hx)
    exact ⟨c, hext x c hc⟩
  · rw [hactive, ← h.announced, hp.eq]

theorem updateHeads (h : s.Orderly) {added removed : OrdSet κ}
    (ht : s.updateHeads added removed = (.ok (), t)) : t.Orderly := by
  have hm := updateHeads_eq_ok ht
  constructor
  · rw [hm.commits]
    exact h.filed
  · intro x hx
    rw [hm.commits]
    rcases (hm.heads x).1 hx with hx | ⟨hx, -⟩
    · exact hm.stored x hx
    · exact h.heads x hx
  · rw [hm.commits, hm.snapshots]
    exact h.snapshots
  · exact announcement_of_updateHeads ht

theorem saveSnapshot (h : s.Orderly) {id : κ} {diffs : List Operation}
    (ht : s.saveSnapshot id diffs = (.ok (), t)) : t.Orderly := by
  unfold Store.saveSnapshot at ht
  split at ht
  next hid =>
    cases ht
    refine ⟨h.filed, h.heads, fun x l hx => ?_, h.announced⟩
    rw [OrdMap.get?_insert] at hx
    split at hx
    next heq =>
      rw [heq]
      exact OrdMap.contains_iff.1 hid
    next => exact h.snapshots x l hx
  next => cases ht

theorem answer (h : s.Orderly) (rule : IdRule κ) (r : Request κ) :
    (s.answer rule r).2.Orderly := by
  cases r with
  | create epoch parents level => exact ⟨h.filed, h.heads, h.snapshots, h.announced⟩
  | push batch => exact (atomic_push s batch).snd h fun t ht => h.push (push_eq_ok_iff.1 ht)
  | updateHeads added removed =>
      exact (atomic_updateHeads s added removed).snd h fun t ht => h.updateHeads ht
  | saveSnapshot id diffs =>
      exact (atomic_saveSnapshot s id diffs).snd h fun t ht => h.saveSnapshot ht
  | loadCommit id =>
      simp only [Store.answer]
      split <;> exact h
  | allHeads => exact h
  | activeHeads => exact h
  | loadSnapshot id => exact h
  | countCommits => exact h

theorem run (h : s.Orderly) (rule : IdRule κ) {α : Type} (p : Program κ α) :
    (p.run (repository rule) s).2.Orderly := by
  induction p generalizing s with
  | done o => exact h
  | call r next ih => exact ih _ (h.answer rule r)

end Orderly

theorem eq_of_answer_error {rule : IdRule κ} {r : Request κ} {e : Fault}
    (h : s.answer rule r = (.error e, t)) : t = s := by
  cases r with
  | push batch => exact atomic_push s batch e t h
  | updateHeads added removed => exact atomic_updateHeads s added removed e t h
  | saveSnapshot id diffs => exact atomic_saveSnapshot s id diffs e t h
  | loadCommit id =>
      simp only [answer] at h
      split at h
      next => cases h
      next =>
        cases h
        rfl
  | create | allHeads | activeHeads | loadSnapshot | countCommits => cases h

/-- A request that fails changes nothing, unless it is a push that is not acknowledged. -/
theorem Responds.eq_of_error {rule : IdRule κ} {fails : Fault → Prop} {r : Request κ} {e : Fault}
    (h : Responds rule fails r s (.error e) t) (hr : ∀ commits, r ≠ .push commits) : t = s := by
  rcases h with h | ⟨e', -, -, h | ⟨commits, hc, -⟩⟩
  · exact eq_of_answer_error h
  · exact h
  · exact absurd hc (hr commits)

/-- Only a failure of the repository keeps stored commits from becoming heads. -/
theorem Responds.fails_of_updateHeads {rule : IdRule κ} {fails : Fault → Prop} {e : Fault}
    {added removed : OrdSet κ} (h : Responds rule fails (.updateHeads added removed) s (.error e) t)
    (hstored : ∀ x ∈ added, ∃ c, s.commits.get? x = some c) : fails e := by
  rcases h with h | ⟨e', hf, he, -⟩
  · have hmoved : ∃ w, s.updateHeads added removed = (.ok (), w) ∧ s.HeadsMoved added removed w :=
      updateHeads_of_stored hstored
    obtain ⟨w, hw, -⟩ := hmoved
    cases hw.symm.trans h
  · cases he
    exact hf

theorem heads_of_updateHeads {added removed : OrdSet κ}
    (h : s.updateHeads added removed = (.ok (), t)) :
    t.heads = (s.heads.diff removed).union added := by
  unfold updateHeads at h
  split at h
  next => cases h
  next =>
    cases h
    exact heads_announce _

/-- Heads that are there already can be added again. -/
theorem updateHeads_again {added : OrdSet κ} (hstored : ∀ x ∈ added, ∃ c, s.commits.get? x = some c)
    (hadded : ∀ x ∈ added, x ∈ s.heads) (hannounced : s.announcement.heads = s.activeHeads) :
    s.updateHeads added ∅ = (.ok (), { s with headUpdates := s.headUpdates + 1 }) := by
  have hheads : (s.heads.diff ∅).union added = s.heads := by
    refine OrdSet.ext fun x => ?_
    rw [OrdSet.mem_union, OrdSet.mem_diff, and_iff_left (OrdSet.not_mem_empty x)]
    exact or_iff_left_of_imp (hadded x)
  have hf : added.toList.find? (fun id => !s.commits.contains id) = none := by
    refine List.find?_eq_none.2 fun x hx => ?_
    simp [OrdMap.contains_iff.2 (hstored x hx)]
  have hactive : activeHeads { s with headUpdates := s.headUpdates + 1 } = s.activeHeads := rfl
  simp only [updateHeads, hf, hheads, announce, hactive, hannounced, if_true]

/-! ## The newest epoch -/

namespace Pushed

variable {m : Commit κ}

theorem epochOf_of_ne (h : Pushed s [m] t) {x : κ} (hx : x ≠ m.id) : t.epochOf x = s.epochOf x := by
  rw [epochOf, h.get?_singleton, if_neg hx, Option.or_none, epochOf]

theorem epochOf_self (h : Pushed s [m] t) : t.epochOf m.id = m.epoch := by
  rw [epochOf, h.get?_singleton, if_pos rfl]
  cases hget : s.commits.get? m.id with
  | none => rfl
  | some d =>
      have hsame := h.same m List.mem_cons_self d hget
      simp only [Commit.sameContent, Bool.and_eq_true, decide_eq_true_eq] at hsame
      exact hsame.1.2

end Pushed

theorem mem_activeHeads_iff (hheads : ∀ x ∈ s.heads, ∃ c, s.commits.get? x = some c) {x : κ} :
    x ∈ s.activeHeads ↔ x ∈ s.heads ∧ ∃ c, s.commits.get? x = some c ∧
      ∀ y ∈ s.heads, ∀ d, s.commits.get? y = some d → d.epoch ≤ c.epoch := by
  have hepoch {y : κ} {d : Commit κ} (hd : s.commits.get? y = some d) :
      s.epochOf y = d.epoch := by
    simp [epochOf, hd]
  rw [mem_activeHeads]
  refine and_congr_right fun hx => ?_
  obtain ⟨c, hc⟩ := hheads x hx
  constructor
  · intro hgreatest
    refine ⟨c, hc, fun y hy d hd => ?_⟩
    rw [← hepoch hd, ← hepoch hc]
    exact hgreatest y hy
  · rintro ⟨c', hc', hgreatest⟩ y hy
    obtain ⟨d, hd⟩ := hheads y hy
    rw [hepoch hd, hepoch hc']
    exact hgreatest y hy d hd

theorem map_id_of_map_get? {h : History κ} (hf : Filed h) {ids : List κ}
    {commits : List (Commit κ)} (hcommits : ids.map h.get? = commits.map some) :
    commits.map Commit.id = ids ∧ ∀ c ∈ commits, h.get? c.id = some c := by
  induction ids generalizing commits with
  | nil =>
      obtain rfl := List.map_eq_nil_iff.1 hcommits.symm
      exact ⟨rfl, fun c hc => absurd hc List.not_mem_nil⟩
  | cons id ids ih =>
      cases commits with
      | nil => cases hcommits
      | cons c commits =>
          rw [List.map_cons, List.map_cons, List.cons.injEq] at hcommits
          obtain ⟨hc, hrest⟩ := hcommits
          obtain ⟨hids, hget⟩ := ih hrest
          have hid : c.id = id := hf id c hc
          refine ⟨by rw [List.map_cons, hids, hid], fun d hd => ?_⟩
          rcases List.mem_cons.1 hd with rfl | hd
          · rw [hid, hc]
          · exact hget d hd

theorem map_id_newest {commits : List (Commit κ)} (hids : commits.map Commit.id = s.heads.toList)
    (hget : ∀ c ∈ commits, s.commits.get? c.id = some c) :
    (newest commits).map Commit.id = s.activeHeads.toList := by
  have hepoch : ∀ c ∈ commits, s.epochOf c.id = c.epoch := by
    intro c hc
    simp [epochOf, hget c hc]
  have hnewest : s.heads.toList.foldl (fun e x => max e (s.epochOf x)) 0 =
      newestEpoch commits := by
    rw [← hids, List.foldl_map]
    exact List.foldl_ext _ _ 0 fun e c hc => by rw [hepoch c hc]
  change _ = s.heads.toList.filter fun x => s.epochOf x == _
  rw [hnewest, ← hids, List.filter_map, newest]
  exact congrArg _ (List.filter_congr fun c hc => by rw [Function.comp_apply, hepoch c hc])

end Store

namespace Program

variable {rule : IdRule κ} {fails : Fault → Prop} {allows : Store κ → Prop} {s : Store κ}

theorem ensures_activeHeadCommits (hs : s.Orderly) :
    activeHeadCommits.Ensures (Store.environment rule fails allows)
      (fun commits t => commits.map Commit.id = s.activeHeads.toList ∧
        (∀ c ∈ commits, s.commits.get? c.id = some c) ∧ t = s)
      (fun e _ => fails e) s := by
  apply Ensures.bind
  apply Ensures.bind
  refine ensures_ask_of_answer (fun _ h => by cases h) rfl (fun _ => ?_) fun e he => he
  have hload : (loadCommits s.heads.toList).Reads (s.view fails)
      (fun commits => s.heads.toList.map s.commits.get? = commits.map some) fails :=
    reads_loadCommits hs.heads (fun _ h => h) fun _ h => h
  refine (hload.ensures (Store.environment_serves s) rfl).mono ?_ fun e t he => he.1
  rintro commits t ⟨hcommits, rfl⟩
  obtain ⟨hids, hget⟩ := Store.map_id_of_map_get? hs.filed hcommits
  exact ⟨Store.map_id_newest hids hget, fun c hc => hget c (List.mem_of_mem_filter hc), rfl⟩

/-- A repository that knows its active heads by loading them finds those of the store. -/
theorem ensures_findActiveHeads (hs : s.Orderly) :
    findActiveHeads.Ensures (Store.environment rule fails allows)
      (fun heads t => heads = s.activeHeads ∧ t = s) (fun e _ => fails e) s := by
  apply Ensures.bind
  refine (ensures_activeHeadCommits hs).mono ?_ fun _ _ he => he
  rintro commits t ⟨hids, -, rfl⟩
  refine ensures_pure ⟨OrdSet.ext fun x => ?_, rfl⟩
  rw [hids, OrdSet.mem_ofList, OrdSet.mem_def]

end Program

namespace Store

/-! ## Agreement -/

variable {s : Store κ}

/-- All views of the heads show the stored heads of the greatest epoch, and a call that fails
changes nothing. -/
structure Agrees (rule : IdRule κ) (s : Store κ) : Prop where
  heads : ∀ x ∈ s.heads, ∃ c, s.commits.get? x = some c
  snapshots : ∀ x diffs, s.snapshots.get? x = some diffs → ∃ c, s.commits.get? x = some c
  newest : ∀ x, x ∈ s.activeHeads ↔ x ∈ s.heads ∧ ∃ c, s.commits.get? x = some c ∧
    ∀ y ∈ s.heads, ∀ d, s.commits.get? y = some d → d.epoch ≤ c.epoch
  announced : s.announcement.heads = s.activeHeads
  looked : ∀ w answer w' t, (repository rule).look w s = some (answer, w', t) →
    answer = .ok s.activeHeads ∧ t = s
  asked : Program.activeHeads.run (repository rule) s = (.ok s.activeHeads, s)
  found : findActiveHeads.run (repository rule) s = (.ok s.activeHeads, s)
  loaded : ∃ commits, activeHeadCommits.run (repository rule) s = (.ok commits, s) ∧
    commits.map Commit.id = s.activeHeads.toList ∧
    ∀ c ∈ commits, s.commits.get? c.id = some c
  moved : ∀ added removed t,
    (Program.updateHeads added removed).run (repository rule) s = (.ok (), t) →
      t.heads = (s.heads.diff removed).union added
  unchanged : ∀ (r : Request κ) e t, (ask r).run (repository rule) s = (.error e, t) → t = s

theorem Orderly.run_activeHeadCommits (hs : s.Orderly) (rule : IdRule κ) :
    ∃ commits, activeHeadCommits.run (repository rule) s = (.ok commits, s) ∧
      commits.map Commit.id = s.activeHeads.toList ∧
      ∀ c ∈ commits, s.commits.get? c.id = some c := by
  have hload : activeHeadCommits.Ensures (environment rule (fun _ => False) fun _ => True) _ _ s :=
    ensures_activeHeadCommits hs
  rcases hload.run with ⟨commits, t, h, hids, hget, rfl⟩ | ⟨_, _, -, he⟩
  · exact ⟨commits, h, hids, hget⟩
  · exact he.elim

theorem Orderly.run_findActiveHeads (hs : s.Orderly) (rule : IdRule κ) :
    findActiveHeads.run (repository rule) s = (.ok s.activeHeads, s) := by
  have hfind : findActiveHeads.Ensures (environment rule (fun _ => False) fun _ => True) _ _ s :=
    ensures_findActiveHeads hs
  rcases hfind.run with ⟨heads, t, h, rfl, rfl⟩ | ⟨_, _, -, he⟩
  · exact h
  · exact he.elim

theorem Orderly.agrees (hs : s.Orderly) (rule : IdRule κ) : s.Agrees rule where
  heads := hs.heads
  snapshots := hs.snapshots
  newest := fun _ => mem_activeHeads_iff hs.heads
  announced := hs.announced
  looked := by
    intro w answer w' t h
    simp only [Repository.look, repository] at h
    split at h
    next => cases h
    next =>
      cases h
      exact ⟨by rw [hs.announced], rfl⟩
  asked := rfl
  found := hs.run_findActiveHeads rule
  loaded := hs.run_activeHeadCommits rule
  moved := by
    intro added removed t h
    have ha : s.answer rule (.updateHeads added removed) = (.ok (), t) := h
    exact heads_of_updateHeads ha
  unchanged := fun _ _ _ => eq_of_answer_error

/-- Whatever has been asked of a store since it was empty, accepted or not. -/
theorem agrees_run (rule : IdRule κ) {α : Type} (p : Program κ α) :
    (p.run (repository rule) empty).2.Agrees rule :=
  (orderly_empty.run rule p).agrees rule

end Store

end Confluence
