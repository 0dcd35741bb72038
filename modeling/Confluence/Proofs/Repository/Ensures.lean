import Confluence.Proofs.History.Ancestry
import Confluence.Repository.Calls

/-!
# What programs ensure

An environment says which requests a program may make in a state and which answers it can get, with
the states that follow. `Ensures env P E p s` says that `p`, started in `s`, makes only permitted
requests, that its value satisfies `P` if it ends with one, and that its fault satisfies `E` if it
ends with one. Nothing is left open: programs are finite trees, so a program whose faults are
excluded returns.

A program that only reads is judged against a view, which knows the stored commits and the faults
that may happen: `Reads v P E p`. What holds of it there holds in every environment that serves the
view, whatever else goes on between its requests.
-/

namespace Confluence

variable {κ σ α β : Type} [CommitId κ]

/-- The requests that a program may make, and the answers it can get with the states after them. -/
structure Environment (κ : Type) [CommitId κ] (σ : Type) where
  permits : Request κ → σ → Prop
  responds : (r : Request κ) → σ → Except Fault r.Answer → σ → Prop

/-- In the states of `R` the environment permits what another one permits in the image of the state,
and answers in no way in which the other one would not. -/
structure Environment.Refines {τ : Type} (env : Environment κ τ) (coarse : Environment κ σ)
    (image : τ → σ) (R : τ → Prop) : Prop where
  permits : ∀ {r u}, R u → coarse.permits r (image u) → env.permits r u
  responds : ∀ {r u a u'}, R u → coarse.permits r (image u) → env.responds r u a u' →
    coarse.responds r (image u) a (image u') ∧ R u'

def Environment.within (env : Environment κ σ) (allows : σ → Prop) : Environment κ σ :=
  ⟨env.permits, fun r s a t => env.responds r s a t ∧ allows t⟩

namespace Program

/-- Every run from a state makes permitted requests only, and ends with a value and state in `P` or
a fault and state in `E`. -/
def Ensures (env : Environment κ σ) (P : α → σ → Prop) (E : Fault → σ → Prop) :
    Program κ α → σ → Prop
  | done (.ok a), s => P a s
  | done (.error e), s => E e s
  | call r next, s => env.permits r s ∧ ∀ a t, env.responds r s a t → (next a).Ensures env P E t

section

variable {env : Environment κ σ} {P P' : α → σ → Prop} {Q : β → σ → Prop} {E E' : Fault → σ → Prop}
  {p : Program κ α} {s : σ}

theorem ensures_pure {a : α} (h : P a s) : (pure a : Program κ α).Ensures env P E s := h

theorem ensures_ask {r : Request κ} {P : r.Answer → σ → Prop} (hr : env.permits r s)
    (hok : ∀ a t, env.responds r s (.ok a) t → P a t)
    (herr : ∀ e t, env.responds r s (.error e) t → E e t) :
    (ask r).Ensures env P E s := by
  refine ⟨hr, fun a t ht => ?_⟩
  cases a with
  | ok a => exact hok a t ht
  | error e => exact herr e t ht

theorem Ensures.mono (h : p.Ensures env P E s) (hP : ∀ a t, P a t → P' a t)
    (hE : ∀ e t, E e t → E' e t) : p.Ensures env P' E' s := by
  induction p generalizing s with
  | done o =>
      cases o with
      | ok a => exact hP a s h
      | error e => exact hE e s h
  | call r next ih => exact ⟨h.1, fun a t ht => ih a (h.2 a t ht)⟩

theorem Ensures.within {allows : σ → Prop} (h : p.Ensures (env.within allows) P E s)
    (hs : allows s) : p.Ensures (env.within allows) (fun a t => P a t ∧ allows t)
      (fun e t => E e t ∧ allows t) s := by
  induction p generalizing s with
  | done o =>
      cases o with
      | ok a => exact ⟨h, hs⟩
      | error e => exact ⟨h, hs⟩
  | call r next ih => exact ⟨h.1, fun a t ht => ih a (h.2 a t ht) ht.2⟩

theorem Ensures.refine {τ : Type} {fine : Environment κ τ} {image : τ → σ} {R : τ → Prop} {u : τ}
    (hr : fine.Refines env image R) (hu : R u) (h : p.Ensures env P E (image u)) :
    p.Ensures fine (fun a u => P a (image u) ∧ R u) (fun e u => E e (image u) ∧ R u) u := by
  induction p generalizing u with
  | done o =>
      cases o with
      | ok a => exact ⟨h, hu⟩
      | error e => exact ⟨h, hu⟩
  | call r next ih =>
      refine ⟨hr.permits hu h.1, fun a u' ha => ?_⟩
      obtain ⟨ha', hu'⟩ := hr.responds hu h.1 ha
      exact ih a hu' (h.2 a _ ha')

theorem Ensures.bind {f : α → Program κ β}
    (h : p.Ensures env (fun a t => (f a).Ensures env Q E t) E s) : (p >>= f).Ensures env Q E s := by
  induction p generalizing s with
  | done o =>
      cases o with
      | ok a => exact h
      | error e => exact h
  | call r next ih => exact ⟨h.1, fun a t ht => ih a (h.2 a t ht)⟩

theorem Ensures.attempt {P : Except Fault α → σ → Prop}
    (h : p.Ensures env (fun a => P (.ok a)) (fun e => P (.error e)) s) :
    p.attempt.Ensures env P E s := by
  induction p generalizing s with
  | done o =>
      cases o with
      | ok a => exact h
      | error e => exact h
  | call r next ih => exact ⟨h.1, fun a t ht => ih a (h.2 a t ht)⟩

/-- Where every request may be made, what goes on after each outcome of a program goes on. -/
theorem ensures_attempt_bind (henv : ∀ r s, env.permits r s) {f : Except Fault α → Program κ β}
    (hf : ∀ o t, (f o).Ensures env Q E t) : (p.attempt >>= f).Ensures env Q E s := by
  induction p generalizing s with
  | done o => exact hf o s
  | call r next ih => exact ⟨henv r s, fun a t _ => ih a⟩

end

end Program

/-! ## Reading -/

/-- What a program that only reads can learn: the stored commits, the snapshots, and the faults that
may happen instead. -/
structure View (κ : Type) [CommitId κ] where
  commits : History κ
  snapshots : κ → Option (List Operation)
  fails : Fault → Prop

namespace View

def Permits (v : View κ) : Request κ → Prop
  | .loadCommit id => ∃ c, v.commits.get? id = some c
  | .loadSnapshot _ => True
  | .countCommits => True
  | _ => False

theorem permits_iff {v : View κ} {r : Request κ} : v.Permits r ↔
    (∃ id c, r = .loadCommit id ∧ v.commits.get? id = some c) ∨ (∃ id, r = .loadSnapshot id) ∨
      r = .countCommits := by
  cases r <;> simp [Permits]

/-- The answers to a permitted request. The count may include commits that have been stored in the
meantime. -/
def Answers (v : View κ) (r : Request κ) (a : Except Fault r.Answer) : Prop :=
  (∃ e, v.fails e ∧ a = .error e) ∨
    match r, a with
    | .loadCommit id, a => ∃ c, v.commits.get? id = some c ∧ a = .ok c
    | .loadSnapshot id, a => a = .ok (v.snapshots id)
    | .countCommits, a => ∃ n, v.commits.size ≤ n ∧ a = .ok n
    | _, _ => False

def environment (v : View κ) : Environment κ Unit :=
  ⟨fun r _ => v.Permits r, fun r _ a _ => v.Answers r a⟩

end View

abbrev Environment.Serves (env : Environment κ σ) (v : View κ) (R : σ → Prop) : Prop :=
  env.Refines v.environment (fun _ => ()) R

namespace Program

def Reads (v : View κ) (P : α → Prop) (E : Fault → Prop) (p : Program κ α) : Prop :=
  p.Ensures v.environment (fun a _ => P a) (fun e _ => E e) ()

section

variable {v : View κ} {P P' : α → Prop} {Q : β → Prop} {E E' : Fault → Prop} {p : Program κ α}

/-- What a reader ensures does not depend on what happens around it. -/
theorem Reads.ensures {env : Environment κ σ} {R : σ → Prop} {s : σ} (hp : p.Reads v P E)
    (hv : env.Serves v R) (hs : R s) :
    p.Ensures env (fun a t => P a ∧ R t) (fun e t => E e ∧ R t) s :=
  Ensures.refine hv hs hp

theorem reads_pure {a : α} (h : P a) : (pure a : Program κ α).Reads v P E := h

theorem reads_fail {e : Fault} (h : E e) : (fail e : Program κ α).Reads v P E := h

theorem Reads.mono (h : p.Reads v P E) (hP : ∀ a, P a → P' a) (hE : ∀ e, E e → E' e) :
    p.Reads v P' E' := Ensures.mono h (fun a _ => hP a) fun e _ => hE e

theorem Reads.bind {f : α → Program κ β} (h : p.Reads v (fun a => (f a).Reads v Q E) E) :
    (p >>= f).Reads v Q E := Ensures.bind h

theorem Reads.attempt {P : Except Fault α → Prop}
    (h : p.Reads v (fun a => P (.ok a)) fun e => P (.error e)) : p.attempt.Reads v P E :=
  Ensures.attempt h

theorem reads_loadCommit {id : κ} {c : Commit κ} {P : Commit κ → Prop}
    (hc : v.commits.get? id = some c) (hP : P c) (hE : ∀ e, v.fails e → E e) :
    (loadCommit id).Reads v P E := by
  refine ensures_ask ⟨c, hc⟩ (fun a _ ha => ?_) fun e _ he => ?_
  · rcases ha with ⟨e, -, ha⟩ | ⟨d, hd, ha⟩
    · cases ha
    · cases ha
      rw [hc] at hd
      cases hd
      exact hP
  · rcases he with ⟨e, hf, he⟩ | ⟨d, -, he⟩
    · cases he
      exact hE e hf
    · cases he

theorem reads_loadSnapshot {id : κ} {P : Option (List Operation) → Prop}
    (hP : P (v.snapshots id)) (hE : ∀ e, v.fails e → E e) :
    (loadSnapshot id : Program κ _).Reads v P E := by
  refine ensures_ask trivial (fun a _ ha => ?_) fun e _ he => ?_
  · rcases ha with ⟨e, -, ha⟩ | ha
    · cases ha
    · cases ha
      exact hP
  · rcases he with ⟨e, hf, he⟩ | he
    · cases he
      exact hE e hf
    · cases he

theorem reads_countCommits {P : Nat → Prop} (hP : ∀ n, v.commits.size ≤ n → P n)
    (hE : ∀ e, v.fails e → E e) : (countCommits : Program κ _).Reads v P E := by
  refine ensures_ask trivial (fun a _ ha => ?_) fun e _ he => ?_
  · rcases ha with ⟨e, -, ha⟩ | ⟨n, hn, ha⟩
    · cases ha
    · cases ha
      exact hP _ hn
  · rcases he with ⟨e, hf, he⟩ | ⟨n, -, he⟩
    · cases he
      exact hE e hf
    · cases he

theorem reads_loadCommits {ids : List κ} {P : List (Commit κ) → Prop}
    (hids : ∀ id ∈ ids, ∃ c, v.commits.get? id = some c)
    (hP : ∀ cs, ids.map v.commits.get? = cs.map some → P cs) (hE : ∀ e, v.fails e → E e) :
    (loadCommits ids).Reads v P E := by
  induction ids generalizing P with
  | nil => exact reads_pure (hP [] rfl)
  | cons id ids ih =>
      obtain ⟨c, hc⟩ := hids id List.mem_cons_self
      apply Reads.bind
      apply reads_loadCommit hc _ hE
      apply Reads.bind
      apply ih fun i hi => hids i (List.mem_cons_of_mem id hi)
      intro cs hcs
      exact reads_pure (hP (c :: cs) (by rw [List.map_cons, List.map_cons, hc, hcs]))

theorem reads_ofExcept {o : Except Fault α} (hok : ∀ a, o = .ok a → P a)
    (herr : ∀ e, o = .error e → E e) : (ofExcept o : Program κ α).Reads v P E := by
  cases o with
  | ok a => exact hok a rfl
  | error e => exact herr e rfl

end

end Program

/-! ## Repositories -/

def Repository.environment (repository : Repository κ σ) : Environment κ σ :=
  ⟨fun _ _ => True, fun r s a t => repository.answer r s = (a, t)⟩

namespace Program

variable {repository : Repository κ σ} {p : Program κ α} {f : α → Program κ β} {s t : σ}

theorem run_bind_ok {a : α} (h : p.run repository s = (.ok a, t)) :
    (p >>= f).run repository s = (f a).run repository t := by
  induction p generalizing s with
  | done o =>
      cases h
      rfl
  | call r next ih => exact ih _ h

theorem run_bind_error {e : Fault} (h : p.run repository s = (.error e, t)) :
    (p >>= f).run repository s = (.error e, t) := by
  induction p generalizing s with
  | done o =>
      cases h
      rfl
  | call r next ih => exact ih _ h

end Program

/-- What a program ensures against a repository is what its run does. -/
theorem Program.ensures_repository_iff {repository : Repository κ σ} {P : α → σ → Prop}
    {E : Fault → σ → Prop} {p : Program κ α} {s : σ} :
    p.Ensures repository.environment P E s ↔
      (∃ a t, p.run repository s = (.ok a, t) ∧ P a t) ∨
        ∃ e t, p.run repository s = (.error e, t) ∧ E e t := by
  induction p generalizing s with
  | done o =>
      cases o with
      | ok a => simp [Ensures, run]
      | error e => simp [Ensures, run]
  | call r next ih =>
      have hrun : (call r next).run repository s =
          (next (repository.answer r s).1).run repository (repository.answer r s).2 := rfl
      rw [hrun, ← ih]
      constructor
      · intro h
        exact h.2 _ _ rfl
      · intro h
        refine ⟨trivial, fun a t ht => ?_⟩
        change repository.answer r s = (a, t) at ht
        rw [ht] at h
        exact h

theorem Program.Ensures.run_refined {τ : Type} {repository : Repository κ τ} {env : Environment κ σ}
    {image : τ → σ} {R : τ → Prop} {p : Program κ α} {P : α → σ → Prop} {E : Fault → σ → Prop}
    {u : τ} (h : p.Ensures env P E (image u)) (hr : repository.environment.Refines env image R)
    (hu : R u) :
    (∃ a t, p.run repository u = (.ok a, t) ∧ P a (image t) ∧ R t) ∨
      ∃ e t, p.run repository u = (.error e, t) ∧ E e (image t) ∧ R t :=
  ensures_repository_iff.1 (h.refine hr hu)

def Program.Outcome (P : α → σ → Prop) (E : Fault → σ → Prop) : Except Fault α × σ → Prop
  | (.ok a, t) => P a t
  | (.error e, t) => E e t

inductive Program.Runs (env : Environment κ σ) :
    Program κ α → σ → Except Fault α → σ → Prop where
  | done (o : Except Fault α) (s : σ) : Runs env (.done o) s o s
  | call {r : Request κ} {next : Except Fault r.Answer → Program κ α} {s u t : σ}
      {a : Except Fault r.Answer} {o : Except Fault α} (answer : env.responds r s a u)
      (rest : Runs env (next a) u o t) : Runs env (.call r next) s o t

theorem Program.Ensures.of_runs {env : Environment κ σ} {P : α → σ → Prop} {E : Fault → σ → Prop}
    {p : Program κ α} {s t : σ} {o : Except Fault α} (h : p.Ensures env P E s)
    (hr : p.Runs env s o t) : Outcome P E (o, t) := by
  induction hr with
  | done o s =>
      cases o with
      | ok a => exact h
      | error e => exact h
  | call answer _ ih => exact ih (h.2 _ _ answer)

theorem Program.runs_run (repository : Repository κ σ) (p : Program κ α) (s : σ) :
    p.Runs repository.environment s (p.run repository s).1 (p.run repository s).2 := by
  induction p generalizing s with
  | done o => exact .done o s
  | call r next ih => exact .call rfl (ih _ _)

theorem Program.Runs.mono {env env' : Environment κ σ} {p : Program κ α} {s t : σ}
    {o : Except Fault α} (h : p.Runs env s o t)
    (henv : ∀ r s a t, env.responds r s a t → env'.responds r s a t) : p.Runs env' s o t := by
  induction h with
  | done o s => exact .done o s
  | call answer _ ih => exact .call (henv _ _ _ _ answer) ih

/-- A run in a fine environment is one in a coarse environment that permits everything. -/
theorem Program.Runs.refine {τ : Type} {fine : Environment κ τ} {coarse : Environment κ σ}
    {image : τ → σ} {R : τ → Prop} {p : Program κ α} {u v : τ} {o : Except Fault α}
    (hr : fine.Refines coarse image R) (hall : ∀ r s, coarse.permits r s) (h : p.Runs fine u o v)
    (hu : R u) : p.Runs coarse (image u) o (image v) := by
  induction h with
  | done o u => exact .done o _
  | call answer _ ih =>
      obtain ⟨hanswer, hw⟩ := hr.responds hu (hall _ _) answer
      exact .call hanswer (ih hw)

/-- What every request leads away from, a run leads away from. -/
theorem Program.run_back {repository : Repository κ σ} (allows : σ → Prop)
    (hback : ∀ r s, allows (repository.answer r s).2 → allows s) (p : Program κ α) {s : σ}
    (hend : allows (p.run repository s).2) : allows s := by
  induction p generalizing s with
  | done o => exact hend
  | call r next ih => exact hback r s (ih _ hend)

/-- A run that ends in an allowed state has come through allowed states only, if no answer leads
back among them. -/
theorem Program.Ensures.outcome {repository : Repository κ σ} {P : α → σ → Prop}
    {E : Fault → σ → Prop} {p : Program κ α} {s : σ} (allows : σ → Prop)
    (hback : ∀ r s, allows (repository.answer r s).2 → allows s)
    (h : p.Ensures (repository.environment.within allows) P E s)
    (hend : allows (p.run repository s).2) : Outcome P E (p.run repository s) := by
  induction p generalizing s with
  | done o =>
      cases o with
      | ok a => exact h
      | error e => exact h
  | call r next ih =>
      have hallowed : allows (repository.answer r s).2 := run_back allows hback _ hend
      exact ih _ (h.2 _ _ ⟨rfl, hallowed⟩) hend

end Confluence
