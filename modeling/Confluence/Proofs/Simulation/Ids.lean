import Confluence.Proofs.Repository.Responses
import Confluence.Simulation.Run

/-!
# How many ids a simulation takes

Only building a commit takes an id. A step of a simulation takes one at most; when the replicas
settle each takes one for a commit and one for a merge, and the last merge takes another.
-/

namespace Confluence

variable {κ : Type} [CommitId κ] {α β : Type}

namespace Program

/-- On no path the program takes more ids than a number. -/
def Takes : Program κ α → Nat → Prop
  | done _, _ => True
  | call r next, n => r.ids ≤ n ∧ ∀ a, (next a).Takes (n - r.ids)

variable {p : Program κ α} {f : α → Program κ β} {m n : Nat}

theorem takes_done (o : Except Fault α) (n : Nat) : (done o : Program κ α).Takes n := trivial

theorem takes_ask {r : Request κ} (h : r.ids ≤ n) : (ask r).Takes n := ⟨h, fun _ => trivial⟩

theorem Takes.mono (h : p.Takes m) (hle : m ≤ n) : p.Takes n := by
  induction p generalizing m n with
  | done o => exact takes_done o n
  | call r next ih => exact ⟨Nat.le_trans h.1 hle, fun a => ih a (h.2 a) (by omega)⟩

theorem Takes.bind (h : p.Takes m) (hf : ∀ a, (f a).Takes n) : (p >>= f).Takes (m + n) := by
  induction p generalizing m with
  | done o =>
      cases o with
      | ok a => exact (hf a).mono (Nat.le_add_left n m)
      | error e => exact takes_done _ _
  | call r next ih =>
      refine ⟨Nat.le_trans h.1 (Nat.le_add_right m n), fun a => ?_⟩
      have hle := h.1
      exact (ih a (h.2 a)).mono (by omega)

theorem Takes.next (h : p.Takes 0) (hf : ∀ a, (f a).Takes n) : (p >>= f).Takes n := by
  have hbind := h.bind hf
  rwa [Nat.zero_add] at hbind

theorem Takes.attempt (h : p.Takes n) : p.attempt.Takes n := by
  induction p generalizing n with
  | done o => exact takes_done _ n
  | call r next ih => exact ⟨h.1, fun a => ih a (h.2 a)⟩

theorem Takes.count_le {σ : Type} {env : Environment κ σ} {s t : σ} {o : Except Fault α}
    (count : σ → Nat) (henv : ∀ r s a t, env.responds r s a t → count t ≤ count s + r.ids)
    (h : p.Takes n) (hr : p.Runs env s o t) : count t ≤ count s + n := by
  induction hr generalizing n with
  | done => exact Nat.le_add_right _ n
  | call answer _ ih =>
      have hanswer := henv _ _ _ _ answer
      have hrest := ih (h.2 _)
      have hle := h.1
      omega

/-- Whatever fails, a program takes no more ids than it may. -/
theorem Takes.serial_le {rule : IdRule κ} {fails : Fault → Prop} {allows : Store κ → Prop}
    {s t : Store κ} {o : Except Fault α} (h : p.Takes n)
    (hr : p.Runs (Store.environment rule fails allows) s o t) : t.serial ≤ s.serial + n := by
  refine h.count_le Store.serial (fun r s a t ha => ?_) hr
  exact ha.1.serial.2

/-! ## Programs -/

theorem takes_loadCommits (ids : List κ) : (loadCommits ids).Takes 0 := by
  induction ids with
  | nil => exact takes_done _ 0
  | cons id ids ih =>
      exact (takes_ask (Nat.le_refl 0)).next fun _ => ih.next fun _ => takes_done _ 0

end Program

open Program

namespace Search

variable {τ : Type} {acc : Accumulator α} {probe : Probe κ τ}

theorem takes_walk (hprobe : ∀ n c, (probe n c).Takes 0) (none : Fault) (fuel : Nat)
    (s : State κ α) : (walk acc probe none fuel s).Takes 0 := by
  induction fuel generalizing s with
  | zero => exact takes_done _ 0
  | succ fuel ih =>
      unfold walk
      split
      next => exact takes_done _ 0
      next =>
        apply (hprobe _ _).attempt.next
        intro o
        split
        next => exact takes_done _ 0
        next => exact takes_done _ 0
        next =>
          apply (takes_loadCommits _).attempt.next
          intro o
          split
          next => exact takes_done _ 0
          next => exact ih _

theorem takes_prepare (heads : OrdSet κ) : (prepare heads).Takes 0 :=
  (takes_loadCommits _).next fun _ => (takes_ask (Nat.le_refl 0)).next fun _ => takes_done _ 0

theorem takes_find (hprobe : ∀ n c, (probe n c).Takes 0) (heads : OrdSet κ) :
    (find heads acc probe).Takes 0 := by
  apply Takes.next
  · apply (takes_prepare heads).attempt.next
    intro o
    split
    next => exact takes_done _ 0
    next => exact takes_walk hprobe _ _ _
  · exact fun _ => takes_done _ 0

end Search

theorem Tips.takes_walk (floor fuel : Nat) (s : State κ) : (walk floor fuel s).Takes 0 := by
  induction fuel generalizing s with
  | zero => exact takes_done _ 0
  | succ fuel ih =>
      unfold walk
      split
      next => exact takes_done _ 0
      next => exact (takes_loadCommits _).next fun _ => ih _

theorem Tips.takes_withoutAncestors (heads : OrdSet κ) : (withoutAncestors heads).Takes 0 := by
  unfold withoutAncestors
  split
  next => exact takes_done _ 0
  next => exact (Search.takes_prepare heads).next fun _ => takes_walk _ _ _

namespace CommonAncestor

theorem takes_spreadAll (visited : OrdSet κ) (reached : Reach κ) (edges : List (κ × List Operation))
    (f : Frontier κ (Reach κ)) : (spreadAll visited reached edges f).Takes 0 := by
  induction edges generalizing f with
  | nil => exact takes_done _ 0
  | cons e edges ih =>
      unfold spreadAll
      split
      next => exact ih f
      next =>
        split
        next => exact ih _
        next => exact (takes_ask (Nat.le_refl 0)).next fun _ => ih _

theorem takes_walk (heads : OrdSet κ) (fuel : Nat) (visited : OrdSet κ) (f : Frontier κ (Reach κ)) :
    (walk heads fuel visited f).Takes 0 := by
  induction fuel generalizing visited f with
  | zero => exact takes_done _ 0
  | succ fuel ih =>
      unfold walk
      split
      next => exact takes_done _ 0
      next =>
        split
        next => exact takes_done _ 0
        next => exact (takes_spreadAll _ _ _ _).next fun _ => ih _ _

end CommonAncestor

theorem Merge.takes_merge (heads : OrdSet κ) : (merge heads).Takes 1 := by
  have hbuild : (build heads).Takes 1 := by
    unfold build
    split
    next => exact takes_done _ 1
    next => exact takes_done _ 1
    next =>
      apply (takes_loadCommits _).next
      intro commits
      apply Takes.next
      · exact (takes_ask (Nat.le_refl 0)).next fun _ => CommonAncestor.takes_walk _ _ _ _
      · intro ancestor
        apply (takes_done _ 0).next
        intro edges
        exact (takes_ask (Nat.le_refl 1)).bind fun _ => takes_done _ 0
  refine hbuild.bind fun merged => (?_ : Takes _ 0)
  cases merged with
  | existing id => exact takes_done _ 0
  | created c => exact (takes_ask (Nat.le_refl 0)).next fun _ => takes_done _ 0

namespace Node

theorem takes_createCommit (parent : κ) (diffs : List Operation) (level : Nat) :
    (createCommit parent diffs level).Takes 1 := by
  apply (takes_ask (Nat.le_refl 0)).next
  intro p
  split
  next => exact takes_done _ 1
  next => exact takes_ask (Nat.le_refl 1)

theorem takes_fetchFrom (heads : OrdSet κ) (current : κ) : (fetchFrom heads current).Takes 0 :=
  (Search.takes_find (fun _ _ => takes_done _ 0) heads).next fun _ => takes_done _ 0

theorem takes_fetch (current : κ) : (fetch current).Takes 0 :=
  (takes_ask (Nat.le_refl 0)).next fun heads => takes_fetchFrom heads current

theorem takes_push (c : Commit κ) : (push c).Takes 1 := by
  apply (takes_ask (Nat.le_refl 0)).next
  intro _
  apply (takes_ask (Nat.le_refl 0)).next
  intro heads
  apply (Tips.takes_withoutAncestors _).next
  intro tips
  exact (Merge.takes_merge tips).bind fun m =>
    (takes_ask (Nat.le_refl 0)).next fun _ => takes_fetchFrom _ _

end Node

namespace Replica

variable (r : Replica κ)

theorem takes_attemptCommit : r.attemptCommit.Takes 1 := by
  unfold attemptCommit
  split
  next => exact takes_done _ 1
  next =>
    refine (Node.takes_createCommit _ _ _).attempt.bind fun o => (?_ : Takes _ 0)
    cases o with
    | error e => exact takes_done _ 0
    | ok c => exact takes_done _ 0

theorem takes_attemptPush : r.attemptPush.Takes 1 := by
  unfold attemptPush
  split
  next => exact takes_done _ 1
  next c _ =>
    refine (Node.takes_push c).attempt.bind fun o => (?_ : Takes _ 0)
    cases o with
    | error e => exact takes_done _ 0
    | ok f => exact takes_done _ 0

theorem takes_attemptFetch : r.attemptFetch.Takes 0 := by
  unfold attemptFetch
  split
  next => exact takes_done _ 0
  next =>
    refine (Node.takes_fetch r.cursor).attempt.next fun o => ?_
    cases o with
    | error e => exact takes_done _ 0
    | ok f => exact takes_done _ 0

theorem takes_fetch : r.fetch.Takes 0 :=
  (takes_attemptFetch r).next fun a => by
    rcases a with ⟨e | f, r'⟩ <;> exact takes_done _ 0

end Replica

/-! ## Simulations -/

namespace Simulation

variable {s : SimulationSettings} {w : World} {r : Replica UInt64}

theorem serial_answer (s : SimulationSettings) (r : Request UInt64) (f : Faulty (Store UInt64)) :
    f.inner.serial ≤ ((repository s).answer r f).2.inner.serial ∧
      ((repository s).answer r f).2.inner.serial ≤ f.inner.serial + r.ids := by
  have hresponds := (Faulty.repository_refines (.sequential 1) s.faults f.enabled
    fun _ => True).responds (r := r) rfl trivial ⟨rfl, trivial⟩
  exact hresponds.1.1.serial

theorem serial_le_run (s : SimulationSettings) (p : Program UInt64 α)
    (f : Faulty (Store UInt64)) : f.inner.serial ≤ (p.run (repository s) f).2.inner.serial := by
  have hback (r : Request UInt64) (g : Faulty (Store UInt64))
      (hg : ((repository s).answer r g).2.inner.serial ≤ (p.run (repository s) f).2.inner.serial) :
      g.inner.serial ≤ (p.run (repository s) f).2.inner.serial :=
    Nat.le_trans (serial_answer s r g).1 hg
  exact run_back (fun g : Faulty (Store UInt64) => g.inner.serial ≤ _) hback p (Nat.le_refl _)

theorem serial_run_le {p : Program UInt64 α} {n : Nat} (h : p.Takes n)
    (f : Faulty (Store UInt64)) :
    (p.run (repository s) f).2.inner.serial ≤ f.inner.serial + n := by
  apply h.count_le (fun f => f.inner.serial) _ (runs_run (repository s) p f)
  intro r g a g' ha
  have hanswer := (serial_answer s r g).2
  rwa [ha] at hanswer

@[simp] theorem repository_recordFailure (w : World) (n i : Nat) (action : String) (e : Fault) :
    (recordFailure w n i action e).repository = w.repository := by
  unfold recordFailure
  split <;> rfl

@[simp] theorem replicas_recordFailure (w : World) (n i : Nat) (action : String) (e : Fault) :
    (recordFailure w n i action e).replicas = w.replicas := by
  unfold recordFailure
  split <;> rfl

theorem repository_turn {n : Nat} {action : String}
    {call : Program UInt64 (Except Fault α × Replica UInt64)} {event : α → Option EventKind} :
    (turn s n r action call event w).repository =
      (call.run (repository s) w.repository).2 := by
  unfold turn
  rcases call.run (repository s) w.repository with ⟨e | ⟨e | a, r'⟩, f⟩
  · simp
  · simp
  · cases he : event a <;> simp [he, record]

theorem repository_edit {n : Nat} : (edit s n r w).repository = w.repository := by
  simp only [edit]
  split <;> rfl

theorem serial_turn {n : Nat} {action : String}
    {call : Program UInt64 (Except Fault α × Replica UInt64)} {event : α → Option EventKind}
    (h : call.Takes 1) :
    w.repository.inner.serial ≤ (turn s n r action call event w).repository.inner.serial ∧
      (turn s n r action call event w).repository.inner.serial ≤
        w.repository.inner.serial + 1 := by
  rw [repository_turn]
  exact ⟨serial_le_run s call _, serial_run_le h _⟩

theorem serial_act (n : Nat) (action : Action) :
    w.repository.inner.serial ≤ (act s n r w action).repository.inner.serial ∧
      (act s n r w action).repository.inner.serial ≤ w.repository.inner.serial + 1 := by
  cases action with
  | edit =>
      rw [act, repository_edit]
      omega
  | commit => exact serial_turn r.takes_attemptCommit
  | push => exact serial_turn r.takes_attemptPush
  | fetch => exact serial_turn (r.takes_attemptFetch.mono (Nat.zero_le 1))

/-- The replica and the action of a step are drawn; the draws change the world only in that other
draws are next. -/
theorem step_eq (s : SimulationSettings) (n : Nat) (w : World) :
    ∃ random, step s n w = { w with random } ∨ ∃ (i : Nat) (r : Replica UInt64) (action : Action),
      w.replicas[i]? = some r ∧ step s n w = act s n r { w with random } action := by
  rcases hfirst : w.random.below (UInt64.ofNat w.replicas.length) with ⟨i, random⟩
  rcases hsecond : random.below (UInt64.ofNat s.weights.total) with ⟨roll, random'⟩
  refine ⟨random', ?_⟩
  simp only [step, hfirst, hsecond]
  cases hr : w.replicas[i.toNat]? with
  | none => exact .inl rfl
  | some r => exact .inr ⟨i.toNat, r, s.weights.action roll.toNat, hr, rfl⟩

theorem serial_step (s : SimulationSettings) (n : Nat) (w : World) :
    w.repository.inner.serial ≤ (step s n w).repository.inner.serial ∧
      (step s n w).repository.inner.serial ≤ w.repository.inner.serial + 1 := by
  rcases step_eq s n w with ⟨random, h | ⟨i, r, action, -, h⟩⟩
  · rw [h]
    exact ⟨Nat.le_refl _, Nat.le_succ _⟩
  · rw [h]
    exact serial_act (w := { w with random }) n action

theorem serial_steps (s : SimulationSettings) (count n : Nat) (w : World) :
    w.repository.inner.serial ≤ (steps s count n w).repository.inner.serial ∧
      (steps s count n w).repository.inner.serial ≤ w.repository.inner.serial + count := by
  induction count generalizing n w with
  | zero => exact ⟨Nat.le_refl _, Nat.le_refl _⟩
  | succ count ih =>
      have hstep := serial_step s n w
      have hrest := ih (n + 1) (step s n w)
      change _ ≤ (steps s count (n + 1) (step s n w)).repository.inner.serial ∧
        (steps s count (n + 1) (step s n w)).repository.inner.serial ≤ _
      omega

def rooted : Store UInt64 where
  commits := .single 1 ⟨1, ∅, 1, 0, none⟩
  heads := .single 1
  snapshots := .single 1 []
  serial := 1
  pushed := 1
  headUpdates := 1
  announcement := ⟨.single 1, 1⟩

theorem start_eq (s : SimulationSettings) (seed : UInt64) : start s seed = .ok
    { repository := { inner := rooted, random := .fork seed faultStream }
      replicas := (List.range s.replicas).map fun id => { id, cursor := 1 }
      random := .ofSeed seed } := rfl

/-- The last act, without faults, with the repository after it. -/
def closing (s : SimulationSettings) (w : World) :
    Except Fault (Except Trouble (UInt64 × Settled UInt64)) × Faulty (Store UInt64) :=
  (settle w.replicas w.unexpected).run.run (repository s) { w.repository with enabled := false }

end Simulation

end Confluence
