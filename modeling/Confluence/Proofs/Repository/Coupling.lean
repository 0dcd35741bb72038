import Confluence.Proofs.Repository.Levels

/-!
# Programs that ask alike

Two programs are coupled if they make the same requests for as long as these are answered alike, and
then end with the same fault or with related values. The answers may be anything that agrees with a
history: a commit of it is loaded as the history holds it, if it is loaded at all. A store that has
grown from the history answers so, whatever else is stored in it and however often it fails, so that
coupled programs leave it in one state and come to related ends.
-/

namespace Confluence

variable {κ : Type} [CommitId κ]

def History.Confirms (h : History κ) : (r : Request κ) → Except Fault r.Answer → Prop
  | .loadCommit id, a => ∀ b c, h.get? id = some b → a = .ok c → c = b
  | _, _ => True

theorem Store.Responds.confirms {rule : IdRule κ} {fails : Fault → Prop} {r : Request κ}
    {s t : Store κ} {a : Except Fault r.Answer} {h : History κ} (ha : Responds rule fails r s a t)
    (he : h.Extends s.commits) : h.Confirms r a := by
  cases r with
  | loadCommit id =>
      rintro b c hb rfl
      have hanswer := ha.answer_of_ok
      simp only [Store.answer, he id b hb] at hanswer
      cases hanswer
      rfl
  | _ => trivial

namespace Program

variable {α β γ δ : Type} {h : History κ} {R : α → β → Prop} {R' : γ → δ → Prop}

/-- Two programs that make the same requests as long as they get the same answers, and end alike. -/
inductive Coupled (h : History κ) (R : α → β → Prop) : Program κ α → Program κ β → Prop where
  | value {a : α} {b : β} (hab : R a b) : Coupled h R (.done (.ok a)) (.done (.ok b))
  | fault (e : Fault) : Coupled h R (.done (.error e)) (.done (.error e))
  | call {r : Request κ} {next : Except Fault r.Answer → Program κ α}
      {next' : Except Fault r.Answer → Program κ β}
      (hnext : ∀ a, h.Confirms r a → Coupled h R (next a) (next' a)) :
      Coupled h R (.call r next) (.call r next')

inductive Agree (R : α → β → Prop) : Except Fault α → Except Fault β → Prop where
  | ok {a : α} {b : β} (hab : R a b) : Agree R (.ok a) (.ok b)
  | error (e : Fault) : Agree R (.error e) (.error e)

theorem coupled_pure {a : α} {b : β} (hab : R a b) : Coupled h R (pure a) (pure b) := .value hab

theorem coupled_self (p : Program κ α) : Coupled h (· = ·) p p := by
  induction p with
  | done o =>
      cases o with
      | ok a => exact .value rfl
      | error e => exact .fault e
  | call r next ih => exact .call fun a _ => ih a

theorem Coupled.bind {p : Program κ α} {q : Program κ β} {f : α → Program κ γ}
    {g : β → Program κ δ} (hpq : Coupled h R p q)
    (hfg : ∀ a b, R a b → Coupled h R' (f a) (g b)) : Coupled h R' (p >>= f) (q >>= g) := by
  induction hpq with
  | value hab => exact hfg _ _ hab
  | fault e => exact .fault e
  | call _ ih => exact .call ih

theorem Coupled.attempt {p : Program κ α} {q : Program κ β} (hpq : Coupled h R p q) :
    Coupled h (Agree R) p.attempt q.attempt := by
  induction hpq with
  | value hab => exact .value (.ok hab)
  | fault e => exact .value (.error e)
  | call _ ih => exact .call ih

theorem coupled_loadCommits {ids : List κ} (hids : ∀ id ∈ ids, ∃ c, h.get? id = some c) :
    Coupled h (fun cs ds => ds = cs ∧ ids.map h.get? = cs.map some) (loadCommits ids)
      (loadCommits ids) := by
  induction ids with
  | nil => exact coupled_pure ⟨rfl, rfl⟩
  | cons id ids ih =>
      obtain ⟨b, hb⟩ := hids id List.mem_cons_self
      have hload : Coupled h (fun c d => d = c ∧ c = b) (loadCommit id) (loadCommit id) := by
        refine .call fun a ha => ?_
        cases a with
        | ok c => exact .value ⟨rfl, ha b c hb rfl⟩
        | error e => exact .fault e
      refine hload.bind ?_
      rintro c _ ⟨rfl, rfl⟩
      refine (ih fun i hi => hids i (List.mem_cons_of_mem id hi)).bind ?_
      rintro cs _ ⟨rfl, hcs⟩
      exact coupled_pure ⟨rfl, by rw [List.map_cons, List.map_cons, hb, hcs]⟩

/-! ## Runs -/

section

variable {σ : Type} {repository : Repository κ σ} {rule : IdRule κ} {fails : Fault → Prop}
  {image : σ → Store κ} {holds : σ → Prop} {u : σ}

/-- Coupled programs come to one state and agree, in every repository that answers like a store that
may fail. -/
theorem Coupled.run
    (hr : repository.environment.Refines (Store.environment rule fails fun _ => True) image holds)
    {p : Program κ α} {q : Program κ β} (hpq : Coupled h R p q) (hu : holds u)
    (he : h.Extends (image u).commits) :
    ∃ o o' t, p.run repository u = (o, t) ∧ q.run repository u = (o', t) ∧ Agree R o o' := by
  induction hpq generalizing u with
  | value hab => exact ⟨_, _, u, rfl, rfl, .ok hab⟩
  | fault e => exact ⟨_, _, u, rfl, rfl, .error e⟩
  | @call r next next' _ ih =>
      have hanswer : repository.environment.responds r u (repository.answer r u).1
          (repository.answer r u).2 := rfl
      obtain ⟨⟨hresponds, -⟩, hv⟩ := hr.responds hu trivial hanswer
      exact ih _ (hresponds.confirms he) hv (he.trans hresponds.history_extends)

end

end Program

end Confluence
