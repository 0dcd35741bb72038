import Confluence.Proofs.Repository.Store
import Confluence.Repository.Faulty

/-!
# A store that may fail

The answers that a client can get from a store over a connection that is not reliable: that of the
store, a fault in place of it, or, for a push, a fault after the batch has been stored. The faults
that may happen are a parameter: without any the store answers by itself, and the repositories with
injected faults answer no other way. A reader sees such a store as a view that never changes.
-/

namespace Confluence

variable {κ : Type} [CommitId κ]

def Request.ids : Request κ → Nat
  | create .. => 1
  | _ => 0

namespace Store

def Responds (rule : IdRule κ) (fails : Fault → Prop) (r : Request κ) (s : Store κ)
    (a : Except Fault r.Answer) (t : Store κ) : Prop :=
  s.answer rule r = (a, t) ∨ ∃ e, fails e ∧ a = .error e ∧
    (t = s ∨ ∃ commits, r = .push commits ∧ s.push commits = (.ok (), t))

/-- A store that may fail, as an environment. Only the states that `allows` admits come into
question, so that a program can be judged up to the point where, say, the ids run out. -/
def environment (rule : IdRule κ) (fails : Fault → Prop) (allows : Store κ → Prop) :
    Environment κ (Store κ) :=
  Environment.within ⟨fun _ _ => True, Responds rule fails⟩ allows

def view (s : Store κ) (fails : Fault → Prop) : View κ := ⟨s.commits, s.snapshots.get?, fails⟩

variable {rule : IdRule κ} {fails : Fault → Prop} {allows : Store κ → Prop} {s t : Store κ}

theorem serial_answer (rule : IdRule κ) (r : Request κ) (s : Store κ) :
    (s.answer rule r).2.serial = s.serial + r.ids := by
  cases r with
  | create epoch parents level => rfl
  | push commits =>
      exact (atomic_push s commits).snd (P := fun t => t.serial = s.serial) rfl fun t ht =>
        (push_eq_ok_iff.1 ht).serial
  | updateHeads added removed =>
      exact (atomic_updateHeads s added removed).snd (P := fun t => t.serial = s.serial) rfl
        fun t ht => (updateHeads_eq_ok ht).serial
  | allHeads => rfl
  | activeHeads => rfl
  | loadCommit id =>
      simp only [answer]
      split <;> rfl
  | loadSnapshot id => rfl
  | saveSnapshot id diffs =>
      simp only [answer, saveSnapshot]
      split <;> rfl
  | countCommits => rfl

theorem Responds.answer_of_ok {r : Request κ} {v : r.Answer}
    (h : Responds rule fails r s (.ok v) t) : s.answer rule r = (.ok v, t) := by
  rcases h with h | ⟨e, -, he, -⟩
  · exact h
  · cases he

/-- No request takes an id back, and none takes more ids than it says. -/
theorem Responds.serial {r : Request κ} {a : Except Fault r.Answer}
    (h : Responds rule fails r s a t) :
    s.serial ≤ t.serial ∧ t.serial ≤ s.serial + r.ids := by
  rcases h with h | ⟨e, -, -, rfl | ⟨commits, -, ht⟩⟩
  · have hanswer : t.serial = s.serial + r.ids := by
      rw [← serial_answer rule r s, h]
    omega
  · omega
  · have hpush := (push_eq_ok_iff.1 ht).serial
    omega

theorem serial_le_of_runs {α : Type} {p : Program κ α} {o : Except Fault α}
    (h : p.Runs (environment rule fails allows) s o t) : s.serial ≤ t.serial := by
  induction h with
  | done => exact Nat.le_refl _
  | call answer _ ih => exact Nat.le_trans answer.1.serial.1 ih

/-- A run that has taken no more ids than allowed when it ends has never taken more. -/
theorem runs_within_limit {α : Type} {p : Program κ α} {o : Except Fault α} {limit : Nat}
    (h : p.Runs (environment rule fails fun _ => True) s o t) (ht : t.serial ≤ limit) :
    p.Runs (environment rule fails fun u => u.serial ≤ limit) s o t := by
  induction h with
  | done => exact .done _ _
  | call answer rest ih =>
      exact .call ⟨answer.1, Nat.le_trans (serial_le_of_runs rest) ht⟩ (ih ht)

/-- What a store that does not fail does, one that may fail can do. -/
theorem runs_of_run {α : Type} (rule : IdRule κ) (fails : Fault → Prop) (p : Program κ α)
    (s : Store κ) :
    p.Runs (environment rule fails fun _ => True) s (p.run (repository rule) s).1
      (p.run (repository rule) s).2 :=
  (Program.runs_run (repository rule) p s).mono fun _ _ _ _ ha => ⟨.inl ha, trivial⟩

theorem environment_serves (s : Store κ) :
    (environment rule fails allows).Serves (s.view fails) (· = s) := by
  refine ⟨fun _ _ => trivial, ?_⟩
  rintro r u a u' rfl hr ⟨ha | ⟨e, he, rfl, hu⟩, -⟩
  · rcases View.permits_iff.1 hr with ⟨id, c, rfl, hc⟩ | ⟨id, rfl⟩ | rfl
    · have hc : u.commits.get? id = some c := hc
      simp only [answer, hc] at ha
      cases ha
      exact ⟨.inr ⟨c, hc, rfl⟩, rfl⟩
    · cases ha
      exact ⟨.inr rfl, rfl⟩
    · cases ha
      exact ⟨.inr ⟨_, Nat.le_refl _, rfl⟩, rfl⟩
  · refine ⟨.inl ⟨e, he, rfl⟩, ?_⟩
    rcases hu with rfl | ⟨commits, rfl, -⟩
    · rfl
    · exact hr.elim

theorem repository_refines (rule : IdRule κ) :
    (repository rule).environment.Refines (environment rule (fun _ => False) fun _ => True) id
      fun _ => True :=
  ⟨fun _ _ => trivial, fun _ _ ha => ⟨⟨.inl ha, trivial⟩, trivial⟩⟩

structure Started (rule : IdRule κ) (epoch : Nat) (root : κ) (t : Store κ) : Prop where
  id : root = rule.assign 0 epoch ∅ 1
  commits : t.commits = .single root ⟨root, ∅, 1, epoch, none⟩
  heads : t.heads = .single root
  snapshots : t.snapshots = .single root []
  serial : t.serial = 1

end Store

namespace Program

variable {rule : IdRule κ} {fails : Fault → Prop} {allows : Store κ → Prop} {s t : Store κ}
  {E : Fault → Store κ → Prop}

theorem ensures_ask_of_answer {r : Request κ} {P : r.Answer → Store κ → Prop}
    (hr : ∀ commits, r ≠ .push commits) {v : r.Answer} (ha : s.answer rule r = (.ok v, t))
    (hP : allows t → P v t) (hE : ∀ e, fails e → E e s) :
    (ask r).Ensures (Store.environment rule fails allows) P E s := by
  refine ensures_ask trivial (fun w u hw => ?_) fun e u he => ?_
  · cases ha.symm.trans hw.1.answer_of_ok
    exact hP hw.2
  · obtain ⟨he | ⟨e', hf, heq, rfl | ⟨commits, hc, -⟩⟩, -⟩ := he
    · cases ha.symm.trans he
    · cases heq
      exact hE e hf
    · exact absurd hc (hr commits)

theorem ensures_createFrom {epoch level : Nat} {parents : Edges κ} {P : Commit κ → Store κ → Prop}
    (hP : allows { s with serial := s.serial + 1 } →
      P ⟨rule.assign s.serial epoch parents level, parents, level, epoch, none⟩
        { s with serial := s.serial + 1 })
    (hE : ∀ e, fails e → E e s) :
    (createFrom epoch parents level).Ensures (Store.environment rule fails allows) P E s :=
  ensures_ask_of_answer (t := { s with serial := s.serial + 1 }) (fun _ h => by cases h) rfl hP hE

theorem ensures_activeHeads {P : OrdSet κ → Store κ → Prop} (hP : P s.activeHeads s)
    (hE : ∀ e, fails e → E e s) : activeHeads.Ensures (Store.environment rule fails allows) P E s :=
  ensures_ask_of_answer (fun _ h => by cases h) rfl (fun _ => hP) hE

theorem ensures_updateHeads {added removed : OrdSet κ} {P : Unit → Store κ → Prop}
    (ht : s.updateHeads added removed = (.ok (), t)) (hP : P () t) (hE : ∀ e, fails e → E e s) :
    (updateHeads added removed).Ensures (Store.environment rule fails allows) P E s :=
  ensures_ask_of_answer (fun _ h => by cases h) ht (fun _ => hP) hE

theorem ensures_updateHeads_of_stored {added removed : OrdSet κ} {P : Unit → Store κ → Prop}
    (hstored : ∀ x ∈ added, ∃ c, s.commits.get? x = some c)
    (hP : ∀ t, s.HeadsMoved added removed t → P () t) (hE : ∀ e, fails e → E e s) :
    (updateHeads added removed).Ensures (Store.environment rule fails allows) P E s := by
  obtain ⟨t, ht, hm⟩ := Store.updateHeads_of_stored hstored
  exact ensures_updateHeads ht (hP t hm) hE

/-- A push that the store accepts may fail before it takes effect or after. -/
theorem ensures_push {commits : List (Commit κ)} {P : Unit → Store κ → Prop}
    (ht : s.push commits = (.ok (), t)) (hP : P () t) (hE : ∀ e, fails e → E e s ∧ E e t) :
    (push commits).Ensures (Store.environment rule fails allows) P E s := by
  have ha : s.answer rule (.push commits) = (.ok (), t) := ht
  refine ensures_ask trivial (fun v u hv => ?_) fun e u he => ?_
  · cases ha.symm.trans hv.1.answer_of_ok
    exact hP
  · obtain ⟨he | ⟨e', hf, heq, rfl | ⟨commits, hc, hu⟩⟩, -⟩ := he
    · cases ha.symm.trans he
    · cases heq
      exact (hE e hf).1
    · cases heq
      cases hc
      cases ht.symm.trans hu
      exact (hE e hf).2

theorem ensures_push_of_ok {commits : List (Commit κ)} {P : Unit → Store κ → Prop}
    (hP : ∀ t, s.push commits = (.ok (), t) → P () t) :
    (push commits).Ensures (Store.environment rule fails allows) P (fun _ _ => True) s := by
  refine ensures_ask trivial (fun v u hv => ?_) fun _ _ _ => trivial
  exact hP u hv.1.answer_of_ok

theorem ensures_initRoot (rule : IdRule κ) (fails : Fault → Prop) (allows : Store κ → Prop)
    (epoch : Nat) :
    (initRoot epoch).Ensures (Store.environment rule fails allows) (Store.Started rule epoch)
      (fun e _ => fails e) .empty := by
  have hget (r : κ) (c : Commit κ) : (OrdMap.single r c).get? r = some c := by
    rw [OrdMap.get?_single, if_pos rfl]
  apply Ensures.bind
  refine ensures_createFrom (fun _ => ?_) fun _ he => he
  apply Ensures.bind
  refine ensures_push rfl ?_ fun _ he => ⟨he, he⟩
  apply Ensures.bind
  refine ensures_ask_of_answer (fun _ h => by cases h)
    (if_pos (OrdMap.contains_iff.2 ⟨_, hget _ _⟩)) (fun _ => ?_) fun _ he => he
  apply Ensures.bind
  refine ensures_updateHeads_of_stored (fun x hx => ?_) (fun t hm => ?_) fun _ he => he
  · rw [OrdSet.mem_single.1 hx]
    exact ⟨_, hget _ _⟩
  · refine ensures_pure ⟨rfl, hm.commits, OrdSet.ext fun x => ?_, hm.snapshots, hm.serial⟩
    rw [hm.heads]
    exact or_iff_left fun h => absurd h.1 (OrdSet.not_mem_empty x)

theorem Ensures.run {α : Type} {p : Program κ α} {P : α → Store κ → Prop}
    (h : p.Ensures (Store.environment rule (fun _ => False) fun _ => True) P E s) :
    (∃ a t, p.run (Store.repository rule) s = (.ok a, t) ∧ P a t) ∨
      ∃ e t, p.run (Store.repository rule) s = (.error e, t) ∧ E e t := by
  rcases h.run_refined (Store.repository_refines rule) trivial with
    ⟨a, t, hrun, ha, -⟩ | ⟨e, t, hrun, he, -⟩
  · exact .inl ⟨a, t, hrun, ha⟩
  · exact .inr ⟨e, t, hrun, he⟩

theorem Reads.run {α : Type} {p : Program κ α} {P : α → Prop} {E : Fault → Prop}
    (h : p.Reads (s.view fun _ => False) P E) (rule : IdRule κ) :
    (∃ a, p.run (Store.repository rule) s = (.ok a, s) ∧ P a) ∨
      ∃ e, p.run (Store.repository rule) s = (.error e, s) ∧ E e := by
  have hserves : (Store.environment rule (fun _ => False) fun _ => True).Serves
      (s.view fun _ => False) (· = s) := Store.environment_serves s
  rcases (h.ensures hserves rfl).run with ⟨a, t, hrun, ha, rfl⟩ | ⟨e, t, hrun, he, rfl⟩
  · exact .inl ⟨a, hrun, ha⟩
  · exact .inr ⟨e, hrun, he⟩

theorem started_of_run {root : κ} {epoch : Nat}
    (h : (initRoot epoch).run (Store.repository rule) .empty = (.ok root, t)) :
    t.Started rule epoch root := by
  have hensures := ensures_initRoot rule (fun _ => False) (fun _ => True) epoch
  rcases hensures.run with ⟨root', t', hrun, ht⟩ | ⟨_, _, -, he⟩
  · cases h.symm.trans hrun
    exact ht
  · exact he.elim

end Program

namespace Faulty

variable {σ : Type} {s : Faulty σ} {rates : FaultRates} {i : Injection}

def Injects (enabled : Bool) (e : Fault) : Prop := enabled = true ∧ ∃ i : Injection, e = i.fault

theorem Injects.isTransient {enabled : Bool} {e : Fault} (h : Injects enabled e) :
    e.isTransient = true := by
  obtain ⟨-, i, rfl⟩ := h
  rfl

/-- A fault happens only where faults are enabled, and to draw it leaves the repository alone. -/
theorem trips_spec {s' : Faulty σ} {hit : Bool} (h : s.trips rates i = (hit, s')) :
    s'.inner = s.inner ∧ s'.enabled = s.enabled ∧ (hit = true → Injects s.enabled i.fault) := by
  unfold trips at h
  split at h
  next he =>
    cases h
    exact ⟨rfl, rfl, fun _ => ⟨he, i, rfl⟩⟩
  next =>
    cases h
    exact ⟨rfl, rfl, fun hne => by cases hne⟩

/-- Losing an acknowledgement replaces a success. -/
theorem acknowledged_spec {α : Type} {o : Except Fault α × Faulty σ} {a : Except Fault α}
    {t : Faulty σ} (h : acknowledged rates o = (a, t)) :
    t.inner = o.2.inner ∧ t.enabled = o.2.enabled ∧ (a = o.1 ∨
      ∃ v e, o.1 = .ok v ∧ a = .error e ∧ Injects o.2.enabled e) := by
  rcases o with ⟨_ | v, s⟩
  · cases h
    exact ⟨rfl, rfl, .inl rfl⟩
  · rcases ht : s.trips rates .lostAck with ⟨hit, s'⟩
    obtain ⟨hi, he, hf⟩ := trips_spec ht
    simp only [acknowledged, ht] at h
    cases hit with
    | true =>
        cases h
        exact ⟨hi, he, .inr ⟨v, _, rfl, rfl, hf rfl⟩⟩
    | false =>
        cases h
        exact ⟨hi, he, .inl rfl⟩

section

variable {rule : IdRule κ} {rates : FaultRates} {r : Request κ} {s t : Faulty (Store κ)}
  {a : Except Fault r.Answer}

theorem pass_spec {s' : Faulty (Store κ)} (hi : s'.inner = s.inner) (he : s'.enabled = s.enabled)
    (hp : s'.pass (Store.repository rule) r = (a, t)) :
    s.inner.answer rule r = (a, t.inner) ∧ t.enabled = s.enabled := by
  cases hp
  refine ⟨?_, he⟩
  rw [← hi]
  rfl

theorem responds_of_pass {fails : Fault → Prop} {s' : Faulty (Store κ)} (hi : s'.inner = s.inner)
    (he : s'.enabled = s.enabled) (hp : s'.pass (Store.repository rule) r = (a, t)) :
    Store.Responds rule fails r s.inner a t.inner ∧ t.enabled = s.enabled := by
  obtain ⟨ha, he⟩ := pass_spec hi he hp
  exact ⟨.inl ha, he⟩

/-- Most requests fail, if they do, before they take effect. -/
theorem guarded_spec {i : Injection}
    (hg : s.guarded rates i (Store.repository rule) r = (a, t)) :
    Store.Responds rule (Injects s.enabled) r s.inner a t.inner ∧ t.enabled = s.enabled := by
  unfold guarded at hg
  rcases h : s.trips rates i with ⟨hit, s'⟩
  obtain ⟨hi, he, hf⟩ := trips_spec h
  rw [h] at hg
  cases hit with
  | true =>
      cases hg
      exact ⟨.inr ⟨_, hf rfl, rfl, .inl hi⟩, he⟩
  | false => exact responds_of_pass hi he hg

theorem push_spec {commits : List (Commit κ)} {a : Except Fault Unit}
    (ha : answer rates (Store.repository rule) (.push commits) s = (a, t)) :
    Store.Responds rule (Injects s.enabled) (.push commits) s.inner a t.inner ∧
      t.enabled = s.enabled := by
  rcases h : s.trips rates .rejectPush with ⟨hit, s'⟩
  obtain ⟨hi, he, hf⟩ := trips_spec h
  simp only [answer, h] at ha
  cases hit with
  | true =>
      cases ha
      exact ⟨.inr ⟨_, hf rfl, rfl, .inl hi⟩, he⟩
  | false =>
      rcases hp : s'.pass (Store.repository rule) (.push commits) with ⟨b, u⟩
      obtain ⟨hb, hu⟩ := pass_spec hi he hp
      simp only [hp] at ha
      obtain ⟨hti, hte, rfl | ⟨v, e, hv, rfl, hf⟩⟩ := acknowledged_spec ha
      · exact ⟨.inl (by rw [hb, hti]), hte.trans hu⟩
      · refine ⟨.inr ⟨e, hu ▸ hf, rfl, .inr ⟨commits, rfl, ?_⟩⟩, hte.trans hu⟩
        obtain rfl : b = .ok v := hv
        rw [hti]
        exact hb

end

/-- Whether faults are injected does not change with a request, and a store behind injected faults
answers like a store that may fail. -/
theorem repository_refines (rule : IdRule κ) (rates : FaultRates) (enabled : Bool)
    (allows : Store κ → Prop) :
    ((repository rates (Store.repository rule)).environment.within fun s => allows s.inner).Refines
      (Store.environment rule (Injects enabled) allows) inner (fun s => s.enabled = enabled) := by
  refine ⟨fun _ _ => trivial, ?_⟩
  rintro r s a t rfl - ⟨ha, hallows⟩
  suffices Store.Responds rule (Injects s.enabled) r s.inner a t.inner ∧ t.enabled = s.enabled from
    ⟨⟨this.1, hallows⟩, this.2⟩
  cases r with
  | push commits => exact push_spec ha
  | updateHeads => exact guarded_spec ha
  | allHeads => exact guarded_spec ha
  | activeHeads => exact guarded_spec ha
  | loadCommit => exact guarded_spec ha
  | loadSnapshot => exact guarded_spec ha
  | create => exact responds_of_pass rfl rfl ha
  | saveSnapshot => exact responds_of_pass rfl rfl ha
  | countCommits => exact responds_of_pass rfl rfl ha

theorem runs_inner {α : Type} (rule : IdRule κ) (rates : FaultRates) (p : Program κ α)
    (s : Faulty (Store κ)) :
    p.Runs (Store.environment rule (Injects s.enabled) fun _ => True) s.inner
      (p.run (repository rates (Store.repository rule)) s).1
      (p.run (repository rates (Store.repository rule)) s).2.inner := by
  have h : p.Runs ((repository rates (Store.repository rule)).environment.within fun _ => True) s
      (p.run (repository rates (Store.repository rule)) s).1
      (p.run (repository rates (Store.repository rule)) s).2 :=
    (Program.runs_run _ p s).mono fun _ _ _ _ ha => ⟨ha, trivial⟩
  exact h.refine (repository_refines rule rates s.enabled fun _ => True) (fun _ _ => trivial) rfl

end Faulty

end Confluence
