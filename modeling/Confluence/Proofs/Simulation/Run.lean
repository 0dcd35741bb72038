import Confluence.Proofs.Simulation.Ids
import Confluence.Proofs.Simulation.Settle

/-!
# Simulations converge

A world is sound if its store is that of a valid stage which all replicas fit, and nothing has
failed that should not. It is so at the start; every action of a replica keeps it so, whichever
requests fail, as long as the ids last; and from every sound world the replicas settle without
trouble.
-/

namespace Confluence.Simulation

open History Program

/-- Where simulations take place: ids are counted up from that of the root, without repetition. -/
def site : Site UInt64 := ⟨.sequential 1, 2 ^ 64, IdRule.sequential_separates 1, 1⟩

/-! ## The start -/

theorem started_rooted : rooted.Started (.sequential 1) 0 1 := ⟨rfl, rfl, rfl, rfl, rfl⟩

/-! ## Programs of replicas -/

/-- What a client does at the site is what its program does in a simulation, if the ids have lasted
until its end. -/
theorem outcome_of_does {α : Type} {s : SimulationSettings} {p : Program UInt64 α}
    {f : Faulty (Store UInt64)} {x : Stage UInt64} {own : Commit UInt64 → Prop}
    {Q : α → Stage UInt64 → Prop} (hx : x.store = f.inner)
    (h : site.Does (Faulty.Injects f.enabled) own x p Q)
    (hids : (p.run (repository s) f).2.inner.serial ≤ 2 ^ 64) :
    Outcome (fun a g => (∃ y : Stage UInt64, y.store = g.inner ∧ Stage.Later site own x y ∧ Q a y) ∧
        g.enabled = f.enabled)
      (fun e g => (Faulty.Injects f.enabled e ∧
        ∃ y : Stage UInt64, y.store = g.inner ∧ Stage.Later site own x y) ∧ g.enabled = f.enabled)
      (p.run (repository s) f) := by
  unfold Site.Does at h
  rw [hx] at h
  have hrefines := Faulty.repository_refines (.sequential 1) s.faults f.enabled
    fun t => t.serial ≤ 2 ^ 64
  apply (h.refine hrefines rfl).outcome _ _ hids
  intro r g hg
  exact Nat.le_trans (serial_answer s r g).1 hg

/-! ## Steps -/

structure Sound (s : SimulationSettings) (w : World) : Prop where
  stage : ∃ x : Stage UInt64, x.store = w.repository.inner ∧ x.Valid site ∧
    Together site x w.replicas
  enabled : w.repository.enabled = true
  ids : w.replicas.map Replica.id = List.range s.replicas
  expected : w.unexpected = []

variable {s : SimulationSettings} {w : World} {r : Replica UInt64}

theorem sound_start (s : SimulationSettings) (seed : UInt64) :
    ∃ w, start s seed = .ok w ∧ Sound s w := by
  have hstarted : rooted.Started site.rule 0 site.root := started_rooted
  refine ⟨_, start_eq s seed, ⟨_, rfl, Stage.valid_of_started hstarted (by decide),
    together_of_started hstarted s.replicas⟩, rfl, ?_, rfl⟩
  rw [List.map_map]
  exact List.map_id _

theorem Sound.id_eq (hw : Sound s w) {i : Nat} (hr : w.replicas[i]? = some r) :
    r.id = i ∧ i < s.replicas := by
  have hid : (List.range s.replicas)[i]? = some r.id := by
    rw [← hw.ids, List.getElem?_map, hr]
    rfl
  rcases List.getElem?_eq_some_iff.1 hid with ⟨hi, hid⟩
  rw [List.getElem_range] at hid
  rw [List.length_range] at hi
  exact ⟨hid.symm, hi⟩

theorem Sound.became (hw : Sound s w) {x y : Stage UInt64} {r' : Replica UInt64} {w' : World}
    (hr : r ∈ w.replicas) (hx : Together site x w.replicas)
    (hxy : Stage.Later site r.Owns x y) (hr' : r.Became site x y r')
    (hstore : y.store = w'.repository.inner) (henabled : w'.repository.enabled = true)
    (hreplicas : ∀ a ∈ w'.replicas, a = r' ∨ a ∈ w.replicas)
    (hids : w'.replicas.map Replica.id = w.replicas.map Replica.id)
    (hexpected : w'.unexpected = []) : Sound s w' where
  stage := ⟨y, hstore, hxy.toValid, hx.became hr hxy hr' hreplicas⟩
  enabled := henabled
  ids := hids.trans hw.ids
  expected := hexpected

theorem Sound.replace (hw : Sound s w) {x y : Stage UInt64} {i : Nat} {r' : Replica UInt64}
    {w' : World} (hr : w.replicas[i]? = some r) (hx : Together site x w.replicas)
    (hxy : Stage.Later site r.Owns x y) (hr' : r.Became site x y r')
    (hstore : y.store = w'.repository.inner) (henabled : w'.repository.enabled = true)
    (hreplicas : w'.replicas = w.replicas.set r.id r') (hexpected : w'.unexpected = []) :
    Sound s w' := by
  apply hw.became (List.mem_of_getElem? hr) hx hxy hr' hstore henabled _ _ hexpected
  · intro a ha
    rw [hreplicas] at ha
    exact (List.mem_or_eq_of_mem_set ha).symm
  · rcases hw.id_eq hr with ⟨hid, hi⟩
    apply List.ext_getElem?
    intro j
    rw [hreplicas, List.map_set, hr'.id, hid, hw.ids, List.getElem?_set]
    split
    next hij => simp [← hij, hi]
    next => rfl

theorem recordFailure_of_transient (w : World) (n i : Nat) (action : String) {e : Fault}
    (he : e.isTransient = true) :
    recordFailure w n i action e = record w n i (.fault action e.code) := by
  unfold recordFailure
  rw [if_pos he]

section

variable {α : Type} {n i : Nat} {action : String}
  {call : Program UInt64 (Except Fault α × Replica UInt64)} {event : α → Option EventKind}

theorem Sound.turn {Q : α → Replica UInt64 → Prop} (hw : Sound s w) (hr : w.replicas[i]? = some r)
    (hdoes : ∀ x : Stage UInt64, x.Valid site → r.Consistent site x →
      site.Does (Faulty.Injects true) r.Owns x call fun a y =>
        r.Became site x y a.2 ∧ r.Ends (Faulty.Injects true) Q a)
    (hids : (turn s n r action call event w).repository.inner.serial ≤ 2 ^ 64) :
    Sound s (turn s n r action call event w) := by
  rcases hw.stage with ⟨x, hstore, hx, htogether⟩
  have hmem : r ∈ w.replicas := List.mem_of_getElem? hr
  have hconsistent := htogether.consistent r hmem
  have hdoes := hdoes x hx hconsistent
  rw [← hw.enabled] at hdoes
  rw [repository_turn] at hids
  have hout := outcome_of_does hstore hdoes hids
  unfold Simulation.turn
  rcases hp : call.run (repository s) w.repository with ⟨e | ⟨o, r'⟩, f⟩
  · rw [hp] at hout
    rcases hout with ⟨⟨he, y, hy, hxy⟩, henabled⟩
    simp only [recordFailure_of_transient _ _ _ _ he.isTransient]
    exact hw.became hmem htogether hxy (hconsistent.became_later hxy) hy
      (henabled.trans hw.enabled) (fun b hb => .inr hb) rfl hw.expected
  · rw [hp] at hout
    rcases hout with ⟨⟨y, hy, hxy, hbecame, hends⟩, henabled⟩
    have henabled := henabled.trans hw.enabled
    rcases hends with ⟨a, rfl, -⟩ | ⟨e, rfl, he, -⟩
    · cases hevent : event a with
      | none =>
          simp only [hevent]
          exact hw.replace hr htogether hxy hbecame hy henabled rfl hw.expected
      | some kind =>
          simp only [hevent]
          exact hw.replace hr htogether hxy hbecame hy henabled rfl hw.expected
    · simp only [recordFailure_of_transient _ _ _ _ he.isTransient]
      exact hw.replace hr htogether hxy hbecame hy henabled rfl hw.expected

end

theorem Sound.edit {n i : Nat} (hw : Sound s w) (hr : w.replicas[i]? = some r) :
    Sound s (edit s n r w) := by
  rcases hw.stage with ⟨x, hstore, hx, htogether⟩
  have hconsistent := htogether.consistent r (List.mem_of_getElem? hr)
  simp only [Simulation.edit]
  split
  next => exact ⟨⟨x, hstore, hx, htogether⟩, hw.enabled, hw.ids, hw.expected⟩
  next o r' hedit =>
    exact hw.replace hr htogether hx.later_refl (hconsistent.became_edit hedit) hstore hw.enabled
      rfl hw.expected

/-- Every action keeps a world sound, whatever fails. -/
theorem Sound.act {n i : Nat} (hw : Sound s w) (hr : w.replicas[i]? = some r) (action : Action)
    (hids : (act s n r w action).repository.inner.serial ≤ 2 ^ 64) :
    Sound s (act s n r w action) := by
  cases action with
  | edit => exact hw.edit hr
  | commit => exact hw.turn hr (fun x hx hr' => hr'.does_attemptCommit hx) hids
  | push => exact hw.turn hr (fun x hx hr' => hr'.does_attemptPush hx) hids
  | fetch =>
      refine hw.turn (Q := fun _ _ => True) hr (fun x hx hr' => ?_) hids
      exact (hr'.does_attemptFetch hx).mono fun a y _ h =>
        ⟨h.1, h.2.imp_left fun ⟨f, hf, _⟩ => ⟨f, hf, trivial⟩⟩

theorem Sound.draw (hw : Sound s w) (random : Random) : Sound s { w with random } :=
  ⟨hw.stage, hw.enabled, hw.ids, hw.expected⟩

theorem Sound.step (hw : Sound s w) (n : Nat)
    (hids : (step s n w).repository.inner.serial ≤ 2 ^ 64) : Sound s (step s n w) := by
  rcases step_eq s n w with ⟨random, h | ⟨i, r, action, hr, h⟩⟩
  · rw [h]
    exact hw.draw random
  · rw [h] at hids ⊢
    exact (hw.draw random).act hr action hids

/-- Any number of steps keeps a world sound if the ids last until the end. -/
theorem Sound.steps (hw : Sound s w) (count n : Nat)
    (hids : (steps s count n w).repository.inner.serial ≤ 2 ^ 64) :
    Sound s (steps s count n w) := by
  induction count generalizing n w with
  | zero => exact hw
  | succ count ih =>
      have hstep : (Simulation.step s n w).repository.inner.serial ≤ 2 ^ 64 :=
        Nat.le_trans (serial_steps s count (n + 1) (Simulation.step s n w)).1 hids
      exact ih (hw.step n hstep) (n + 1) hids

/-! ## The end -/

/-- From a sound world the replicas settle and have converged. -/
theorem Sound.finish (hw : Sound s w) (hids : (closing s w).2.inner.serial ≤ 2 ^ 64) :
    ∃ result, finish s w = .ok result ∧
      result.settled.replicas.map ReplicaView.id = List.range s.replicas ∧
        ∃ head, result.settled.Converged head := by
  rcases hw.stage with ⟨x, hstore, hx, htogether⟩
  have hsure : ∀ e, ¬Faulty.Injects false e := fun e he => by cases he.1
  have hsettles : Settles site (Faulty.Injects false) x (settle w.replicas w.unexpected) _ :=
    settles_settle hsure hx htogether
  have hout : Outcome _ _ (closing s w) :=
    outcome_of_does (f := { w.repository with enabled := false }) hstore hsettles hids
  rcases hclosing : closing s w with ⟨⟨e⟩ | o, f⟩
  · rw [hclosing] at hout
    exact (hsure e hout.1.1).elim
  · rw [hclosing] at hout
    rcases hout with ⟨⟨y, -, -, ⟨head, settled⟩, rfl, -, hids, hconverged⟩, -⟩
    have hfinish : Simulation.finish s w = .ok
        { trace := w.trace ++ [⟨s.steps, 0, .settled head⟩]
          settled
          faults := w.repository.counts
          merges := (settled.graph.commits.filter Commit.isMerge).length } := by
      simp only [Simulation.finish]
      rw [← closing, hclosing]
    exact ⟨_, hfinish, hids.trans hw.ids, y.head, hconverged hw.expected⟩

end Confluence.Simulation
