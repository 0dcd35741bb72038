import Confluence.Proofs.Concurrency.Calls

/-!
# Readers are exact while the heads move

The invariant of a session says that its store is tended and that every job keeps the rules from
where it stands and will have come to what its call promises. The job whose request is answered has
kept the rules, so nothing is lost, and what the others have come to lasts. In the end a reader has
returned one of the heads that were active when it read them last, and the operations that it
returned lead to that head's document.
-/

namespace Confluence

open History Program Store Shared

variable {κ : Type} [CommitId κ] {rule : IdRule κ} {root : κ} {epoch : Nat}

/-! ## The start -/

theorem Store.Started.tended {s : Store κ} (hs : s.Started rule epoch root) :
    s.Tended root epoch := by
  have hget {id : κ} {c : Commit κ} (hc : s.commits.get? id = some c) :
      id = root ∧ c = ⟨root, ∅, 1, epoch, none⟩ := by
    rw [hs.commits, OrdMap.get?_single] at hc
    split at hc
    next hid => exact ⟨hid, (Option.some.inj hc).symm⟩
    next => cases hc
  have hroot : s.commits.get? root = some ⟨root, ∅, 1, epoch, none⟩ := by
    rw [hs.commits, OrdMap.get?_single, if_pos rfl]
  have hsound : Sound s.commits fun _ => ∅ := by
    rw [hs.commits]
    exact sound_single ⟨root, ∅, 1, epoch, none⟩ rfl
  have hrebuilds : s.Rebuilds fun _ => ∅ := by
    refine { hsound with blank := fun _ _ => rfl, snapshots := ?_, heads := ?_ }
    · intro id l hl
      rw [hs.snapshots, OrdMap.get?_single] at hl
      split at hl
      next hid =>
        cases hl
        exact ⟨⟨_, hid ▸ hroot⟩, .nil _⟩
      next => cases hl
    · intro x hx
      rw [hs.heads, OrdSet.mem_single] at hx
      exact ⟨_, hx ▸ hroot⟩
  refine ⟨⟨_, hrebuilds⟩, fun id c hc => ?_, ⟨root, ?_, .refl _⟩, [], ?_⟩
  · rw [(hget hc).2]
  · rw [hs.heads, OrdSet.mem_single]
  · rw [hs.snapshots, OrdMap.get?_single, if_pos rfl]

/-! ## Jobs -/

structure Task.Returns (epoch : Nat) (s : Store κ) (read : OrdSet κ) (task : Task κ)
    (result : Task.Result κ) : Prop where
  built : ∀ c, result = .built c → s.Fits epoch c
  moved : ∀ f, result = .moved f → s.Covers f.commit
  lands : task.isReader = true → ∃ f d, result = .moved f ∧ task.StartsFrom s.commits d ∧
    Lands s read d f

def Job.Keeps (rule : IdRule κ) (root : κ) (epoch : Nat) (s : Store κ) (j : Job κ) : Prop :=
  j.program.Ensures (environment rule root epoch)
    (fun result st => j.task.Returns epoch st.1 st.2 result) (fun _ _ => j.task.isReader = false)
    (s, j.read)

variable {s t : Store κ} {read : OrdSet κ}

theorem Task.StartsFrom.grow {task : Task κ} {d : Document} (hd : task.StartsFrom s.commits d)
    (he : Extends s.commits t.commits) : task.StartsFrom t.commits d := by
  cases task with
  | fetch current => exact Replays.grow hd he
  | checkout => exact hd
  | create | push | mergeHeads => exact hd

theorem Store.Tended.startsFrom_unique {task : Task κ} {d e : Document}
    (hs : s.Tended root epoch) (hd : task.StartsFrom s.commits d)
    (he : task.StartsFrom s.commits e) : d = e := by
  cases task with
  | fetch current =>
      obtain ⟨doc, hdoc⟩ := hs.documents
      rw [hdoc.eq_of_replays hd,
        hdoc.eq_of_replays he]
  | checkout => exact hd.trans he.symm
  | create | push | mergeHeads => exact hd.elim

theorem Shared.Lands.onward {start : Document} {f : Fetched κ} (h : Lands s read start f)
    (hst : s.Onward root epoch t) : Lands t read start f := by
  obtain ⟨d, hd, hlead⟩ := h.leads
  exact ⟨h.mem, hst.covers _ h.covers, d, hd.grow hst.history, hlead⟩

theorem Task.returns_built {task : Task κ} {c : Commit κ} (hc : s.Fits epoch c)
    (htask : task.isReader = false) : task.Returns epoch s read (.built c) where
  built := by
    rintro _ ⟨⟩
    exact hc
  moved := by
    rintro f ⟨⟩
  lands := fun h => by simp [htask] at h

theorem Task.returns_merged {task : Task κ} {id : κ} (htask : task.isReader = false) :
    task.Returns epoch s read (.merged id) where
  built := by
    rintro c ⟨⟩
  moved := by
    rintro f ⟨⟩
  lands := fun h => by simp [htask] at h

theorem Task.returns_moved {task : Task κ} {f : Fetched κ} (hf : s.Covers f.commit)
    (hlands : task.isReader = true → ∃ d, task.StartsFrom s.commits d ∧ Lands s read d f) :
    task.Returns epoch s read (.moved f) where
  built := by
    rintro c ⟨⟩
  moved := by
    rintro _ ⟨⟩
    exact hf
  lands := by
    intro h
    obtain ⟨d, hd, hl⟩ := hlands h
    exact ⟨f, d, rfl, hd, hl⟩

theorem Task.Returns.onward {task : Task κ} {result : Task.Result κ}
    (h : task.Returns epoch s read result) (hst : s.Onward root epoch t) :
    task.Returns epoch t read result where
  built := fun c hc => (h.built c hc).grow hst.history
  moved := fun f hf => hst.covers _ (h.moved f hf)
  lands := by
    intro hreader
    obtain ⟨f, d, hf, hd, hlands⟩ := h.lands hreader
    exact ⟨f, d, hf, hd.grow hst.history, hlands.onward hst⟩

theorem Job.Keeps.onward {j : Job κ} (h : j.Keeps rule root epoch s)
    (hst : s.Onward root epoch t) : j.Keeps rule root epoch t :=
  ensures_onward hst (fun _ hr => hr.onward hst) (fun _ he => he) h

/-! ## Sessions -/

namespace Session

structure Intact (rule : IdRule κ) (root : κ) (epoch : Nat) (s : Session κ) : Prop where
  tended : s.store.Tended root epoch
  keeps : ∀ j ∈ s.jobs, j.Keeps rule root epoch s.store

variable {s t : Session κ}

theorem Intact.returned (hs : s.Intact rule root epoch) {result : Task.Result κ}
    (h : s.Returned result) : ∃ j ∈ s.jobs, j.task.Returns epoch s.store j.read result := by
  obtain ⟨j, hj, hdone⟩ := h
  have hkeeps := hs.keeps j hj
  unfold Job.Keeps at hkeeps
  rw [hdone] at hkeeps
  exact ⟨j, hj, hkeeps⟩

theorem Intact.covers_of_admits (hs : s.Intact rule root epoch) {current : κ}
    (h : s.Admits root (.fetch current)) : s.store.Covers current := by
  rcases h with rfl | ⟨f, hf, rfl⟩
  · exact hs.tended.covers
  · obtain ⟨j, -, hj⟩ := hs.returned hf
    exact hj.moved f rfl

theorem Intact.keeps_start (hs : s.Intact rule root epoch) {task : Task κ}
    (h : s.Admits root task) : Job.Keeps rule root epoch s.store ⟨task, task.program, ∅⟩ := by
  cases task with
  | create parent diffs level =>
      obtain ⟨d, hd, ha⟩ := h
      exact Ensures.bind ((ensures_createCommit hs.tended hd ha).mono
        (fun c st hc => Task.returns_built hc rfl) fun _ _ _ => rfl)
  | push c =>
      obtain ⟨j, -, hj⟩ := hs.returned h
      exact Ensures.bind ((ensures_push (hj.built c rfl)).mono
        (fun f st hf => Task.returns_moved hf fun hr => by cases hr) fun _ _ _ => rfl)
  | mergeHeads =>
      exact Ensures.bind (ensures_mergeHeads.mono
        (fun m st _ => Task.returns_merged rfl) fun _ _ _ => rfl)
  | fetch current =>
      have hcovers := hs.covers_of_admits h
      obtain ⟨c, hc⟩ := hs.tended.stored_of_covers hcovers
      obtain ⟨d, hd, -⟩ := hs.tended.exists_replays hc
      exact Ensures.bind ((ensures_fetch hcovers hd).mono
        (fun f st hf => Task.returns_moved hf.1.covers fun _ => ⟨d, hf.2, hf.1⟩)
        fun _ _ he => he.elim)
  | checkout =>
      exact Ensures.bind (ensures_checkout.mono
        (fun f st hf => Task.returns_moved hf.covers fun _ => ⟨∅, rfl, hf⟩) fun _ _ he => he.elim)

/-- A step keeps the invariant: what the others have come to lasts while nothing is lost. -/
theorem Intact.step (hs : s.Intact rule root epoch) (h : Step rule root s t) :
    t.Intact rule root epoch := by
  cases h with
  | start task h =>
      refine ⟨hs.tended, fun j hj => ?_⟩
      rcases List.mem_append.1 hj with hj | hj
      · exact hs.keeps j hj
      · cases List.mem_singleton.1 hj
        exact hs.keeps_start h
  | @request i task r next read answer u hi ha =>
      have hmem : ⟨task, .call r next, read⟩ ∈ s.jobs := List.mem_of_getElem? hi
      have hkeeps := hs.keeps _ hmem
      have honward : s.store.Onward root epoch u := by
        have h := onward_of_answer rule hs.tended hkeeps.1
        rwa [ha] at h
      refine ⟨honward.tended, fun j hj => ?_⟩
      rcases List.mem_or_eq_of_mem_set hj with hj | rfl
      · exact (hs.keeps j hj).onward honward
      · exact hkeeps.2 answer (u, _) ⟨s.store, hs.tended.onward, ha, rfl⟩

theorem Intact.steps (hs : s.Intact rule root epoch) (h : Steps rule root s t) :
    t.Intact rule root epoch := by
  induction h with
  | refl => exact hs
  | tail _ hstep ih => exact ih.step hstep

/-- What a job comes to if it is left alone. -/
theorem run_of_ensures {α : Type} {p : Program κ α} {P : α → Store κ × OrdSet κ → Prop}
    {u : Store κ} {read : OrdSet κ} (hu : u.Tended root epoch)
    (hp : p.Ensures (environment rule root epoch) P (fun _ _ => False) (u, read)) :
    ∃ a v, p.run (repository rule) u = (.ok a, v) := by
  induction p generalizing u read with
  | done o =>
      cases o with
      | ok a => exact ⟨a, u, rfl⟩
      | error e => exact hp.elim
  | call r next ih =>
      have honward := onward_of_answer rule hu hp.1
      exact ih _ honward.tended (hp.2 _ (_, r.read u read) ⟨u, hu.onward, rfl, rfl⟩)

/-- Every stored commit is replayed to one document. A reader does not fail: left alone it returns,
and when it has returned, then one of the heads that were active when it read them last, with
operations that lead from the document that it started from to the document of that head. -/
structure Exact (rule : IdRule κ) (s : Session κ) : Prop where
  documents : ∀ id c, s.store.commits.get? id = some c → ∃! d, Replays s.store.commits id d
  returns : ∀ j ∈ s.jobs, j.task.isReader = true →
    ∃ result t, j.program.run (repository rule) s.store = (.ok result, t)
  returned : ∀ j ∈ s.jobs, j.task.isReader = true → ∀ o, j.program = .done o →
    ∃ f, o = .ok (.moved f) ∧ f.commit ∈ j.read ∧
      (∃ d, j.task.StartsFrom s.store.commits d) ∧
      ∀ d, j.task.StartsFrom s.store.commits d →
        Replays s.store.commits f.commit (d.applyAll f.diffs)

theorem Intact.exact (hs : s.Intact rule root epoch) : s.Exact rule where
  documents := fun id c hc => hs.tended.exists_replays hc
  returns := by
    intro j hj hreader
    refine run_of_ensures hs.tended ((hs.keeps j hj).mono (fun _ _ hr => hr) fun _ _ he => ?_)
    rw [hreader] at he
    cases he
  returned := by
    intro j hj hreader o ho
    have hkeeps := hs.keeps j hj
    unfold Job.Keeps at hkeeps
    rw [ho] at hkeeps
    cases o with
    | error e =>
        change j.task.isReader = false at hkeeps
        rw [hreader] at hkeeps
        cases hkeeps
    | ok result =>
        obtain ⟨f, d, rfl, hd, hlands⟩ := Task.Returns.lands hkeeps hreader
        obtain ⟨e, he, hlead⟩ := hlands.leads
        refine ⟨f, rfl, hlands.mem, ⟨d, hd⟩, fun d' hd' => ?_⟩
        obtain rfl := hs.tended.startsFrom_unique hd' hd
        rw [hlead.applyAll_eq]
        exact he

/-- Readers are exact however calls interleave. -/
theorem exact_of_steps {start : Store κ}
    (hroot : (initRoot epoch).run (repository rule) .empty = (.ok root, start))
    (h : Steps rule root ⟨start, []⟩ s) : s.Exact rule := by
  have hstart : Intact rule root epoch ⟨start, []⟩ :=
    ⟨(started_of_run hroot).tended, fun j hj => absurd hj List.not_mem_nil⟩
  exact (hstart.steps h).exact

/-! ## A checkout while a commit is pushed -/

def turn (rule : IdRule κ) (s : Session κ) (i : Nat) : Session κ :=
  match s.jobs[i]? with
  | some ⟨task, .call r next, read⟩ =>
    ⟨(s.store.answer rule r).2,
      s.jobs.set i ⟨task, next (s.store.answer rule r).1, r.read s.store read⟩⟩
  | _ => s

theorem steps_turn (rule : IdRule κ) (root : κ) (s : Session κ) (i : Nat) :
    Steps rule root s (s.turn rule i) := by
  unfold turn
  split
  next hi => exact .single (.request hi rfl)
  next => exact .refl

theorem steps_turns (rule : IdRule κ) (root : κ) (order : List Nat) (s : Session κ) :
    Steps rule root s (order.foldl (turn rule) s) := by
  induction order generalizing s with
  | nil => exact .refl
  | cons i order ih => exact (steps_turn rule root s i).trans (ih _)

def opening : Session UInt64 where
  store := ((initRoot 0).run (repository (.sequential 1)) .empty).2
  jobs := [⟨.checkout, Task.checkout.program, ∅⟩,
    ⟨.create 1 [Document.edit ∅ "k" (some "v")] 2,
      (Task.create 1 [Document.edit ∅ "k" (some "v")] 2).program, ∅⟩]

def edited : Commit UInt64 := ⟨2, .single 1 [Document.edit ∅ "k" (some "v")], 2, 0, none⟩

def pushing : Session UInt64 :=
  let s := [1, 1].foldl (turn (.sequential 1)) opening
  { s with jobs := s.jobs ++ [⟨.push edited, (Task.push edited).program, ∅⟩] }

def ending : Session UInt64 :=
  ([0] ++ List.replicate 10 2 ++ List.replicate 10 0).foldl (turn (.sequential 1)) pushing

theorem steps_opening : Steps (.sequential 1) 1 ⟨opening.store, []⟩ opening := by
  have hcheckout : Step (.sequential 1) 1 ⟨opening.store, []⟩
      ⟨opening.store, [⟨.checkout, Task.checkout.program, ∅⟩]⟩ := .start .checkout trivial
  have hroot : Replays opening.store.commits 1 ∅ := .root rfl rfl
  have hcreate : Step (.sequential 1) 1
      ⟨opening.store, [⟨.checkout, Task.checkout.program, ∅⟩]⟩ opening :=
    .start (.create 1 [Document.edit ∅ "k" (some "v")] 2)
      ⟨∅, hroot, (Document.Leads.edit ∅ "k" (some "v")).anchors⟩
  exact .tail (.single hcheckout) hcreate

theorem steps_ending : Steps (.sequential 1) 1 ⟨opening.store, []⟩ ending := by
  have hbuilt : ([1, 1].foldl (turn (.sequential 1)) opening).Returned (.built edited) :=
    ⟨_, List.mem_cons_of_mem _ List.mem_cons_self, rfl⟩
  have hpush : Step (.sequential 1) 1 ([1, 1].foldl (turn (.sequential 1)) opening) pushing :=
    .start (.push edited) hbuilt
  have hbuild : Steps (.sequential 1) 1 ⟨opening.store, []⟩ pushing :=
    (steps_opening.trans (steps_turns (.sequential 1) 1 [1, 1] opening)).tail hpush
  exact hbuild.trans (steps_turns (.sequential 1) 1 _ pushing)

/-- The checkout has read the root as the only head first, and returns the edit. -/
theorem exact_ending :
    (initRoot 0).run (repository (.sequential 1)) .empty = (.ok 1, opening.store) ∧
    Steps (.sequential 1) 1 ⟨opening.store, []⟩ ending ∧
    (∃ j ∈ ending.jobs, j.task = .checkout ∧
      ∃ f, j.program = .done (.ok (.moved f)) ∧ f.commit = 2) ∧ ending.Exact (.sequential 1) := by
  have hroot : (initRoot 0).run (repository (.sequential 1)) .empty = (.ok 1, opening.store) := rfl
  exact ⟨hroot, steps_ending, ⟨_, List.mem_cons_self, rfl, _, rfl, rfl⟩,
    exact_of_steps hroot steps_ending⟩

end Session

end Confluence
