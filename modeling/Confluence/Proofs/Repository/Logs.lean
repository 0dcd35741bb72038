import Confluence.Proofs.History.Merge
import Confluence.Proofs.Repository.Heads

/-!
# What a run has asked for

A log lists the requests of a run with the answers to them. A program inspects a history if it makes
no request but reads, whether what it asks for is there or not. Whatever is missing and whatever
fails, such a program leaves a store as it was, and its log shows that it has only read. The search
for tips inspects, and so does the part of a merge that plans the commit.
-/

namespace Confluence

open Program

variable {κ σ α β : Type} [CommitId κ]

structure Exchange (κ : Type) [CommitId κ] where
  request : Request κ
  answer : Except Fault request.Answer

def Environment.logged (env : Environment κ σ) : Environment κ (σ × List (Exchange κ)) where
  permits r u := env.permits r u.1
  responds r u a v := env.responds r u.1 a v.1 ∧ v.2 = u.2 ++ [⟨r, a⟩]

theorem Program.Runs.exists_logged {env : Environment κ σ} {p : Program κ α} {s t : σ}
    {o : Except Fault α} (h : p.Runs env s o t) (log : List (Exchange κ)) :
    ∃ log', p.Runs env.logged (s, log) o (t, log') := by
  induction h generalizing log with
  | done o s => exact ⟨log, .done o _⟩
  | @call r next s u t a o answer _ ih =>
      obtain ⟨log', hrest⟩ := ih (log ++ [⟨r, a⟩])
      exact ⟨log', .call ⟨answer, rfl⟩ hrest⟩

/-! ## Reads -/

def Request.IsRead : Request κ → Prop
  | allHeads | activeHeads | loadCommit _ | loadSnapshot _ | countCommits => True
  | create .. | push _ | updateHeads .. | saveSnapshot .. => False

def OnlyReads (log : List (Exchange κ)) : Prop := ∀ x ∈ log, x.request.IsRead

def Request.Faithful (h : History κ) : (r : Request κ) → Except Fault r.Answer → Prop
  | loadCommit id, a => ∀ c, a = .ok c → h.get? id = some c
  | _, _ => True

/-- The environment of a program that only reads, from a history in which commits may be missing. -/
def History.reading (h : History κ) : Environment κ Unit :=
  ⟨fun r _ => r.IsRead, fun r _ a _ => r.Faithful h a⟩

def Program.Inspects (h : History κ) (P : α → Prop) (p : Program κ α) : Prop :=
  p.Ensures h.reading (fun a _ => P a) (fun _ _ => True) ()

namespace Program

variable {h : History κ} {P P' : α → Prop} {Q : β → Prop} {p : Program κ α}

theorem inspects_pure {a : α} (ha : P a) : (pure a : Program κ α).Inspects h P := ha

theorem inspects_fail (e : Fault) : (fail e : Program κ α).Inspects h P := trivial

theorem inspects_ofExcept (o : Except Fault α) : (ofExcept o).Inspects h fun _ => True := by
  cases o <;> trivial

theorem inspects_ask {r : Request κ} {P : r.Answer → Prop} (hr : r.IsRead)
    (hP : ∀ a, r.Faithful h (.ok a) → P a) : (ask r).Inspects h P :=
  ensures_ask hr (fun a _ ha => hP a ha) fun _ _ _ => trivial

theorem Inspects.mono (hp : p.Inspects h P) (hP : ∀ a, P a → P' a) : p.Inspects h P' :=
  Ensures.mono hp (fun a _ => hP a) fun _ _ he => he

theorem Inspects.bind {f : α → Program κ β} (hp : p.Inspects h fun a => (f a).Inspects h Q) :
    (p >>= f).Inspects h Q := Ensures.bind hp

theorem inspects_loadCommits (h : History κ) (ids : List κ) :
    (loadCommits ids).Inspects h fun cs => ids.map h.get? = cs.map some := by
  induction ids with
  | nil => exact inspects_pure rfl
  | cons id ids ih =>
      apply Inspects.bind
      refine inspects_ask trivial fun c hc => ?_
      have hc : h.get? id = some c := hc c rfl
      apply Inspects.bind
      refine ih.mono fun cs hcs => ?_
      exact inspects_pure (by rw [List.map_cons, List.map_cons, hc, hcs])

end Program

/-! ## Programs that inspect -/

theorem Tips.inspects_walk (h : History κ) (floor fuel : Nat) (s : State κ) :
    (walk floor fuel s).Inspects h fun tips => ∀ x ∈ tips, x ∈ s.tips := by
  induction fuel generalizing s with
  | zero => exact inspects_pure fun _ hx => hx
  | succ fuel ih =>
      unfold walk
      split
      next => exact inspects_pure fun _ hx => hx
      next =>
        apply Inspects.bind
        refine (inspects_loadCommits h _).mono fun parents _ => ?_
        exact (ih _).mono fun tips htips x hx => (OrdSet.mem_diff.1 (htips x hx)).1

theorem Tips.inspects_withoutAncestors (h : History κ) (heads : OrdSet κ) :
    (withoutAncestors heads).Inspects h fun tips => ∀ x ∈ tips, x ∈ heads := by
  unfold withoutAncestors
  split
  next => exact inspects_pure fun _ hx => hx
  next =>
    apply Inspects.bind
    apply Inspects.bind
    refine (inspects_loadCommits h _).mono fun commits _ => ?_
    apply Inspects.bind
    refine inspects_ask trivial fun n _ => ?_
    have hwalk := inspects_walk h (floorOf commits) n
      ⟨Frontier.add ∅ (commits.map fun c => (c, ())), heads, heads⟩
    exact inspects_pure hwalk

namespace CommonAncestor

theorem inspects_spreadAll (h : History κ) (visited : OrdSet κ) (reached : Reach κ)
    (edges : List (κ × List Operation)) (f : Frontier κ (Reach κ)) :
    (spreadAll visited reached edges f).Inspects h fun _ => True := by
  induction edges generalizing f with
  | nil => exact inspects_pure trivial
  | cons e edges ih =>
      unfold spreadAll
      split
      next => exact ih f
      next =>
        split
        next => exact ih _
        next =>
          apply Inspects.bind
          exact inspects_ask trivial fun c _ => ih _

theorem inspects_walk (h : History κ) (heads : OrdSet κ) (fuel : Nat) (visited : OrdSet κ)
    (f : Frontier κ (Reach κ)) : (walk heads fuel visited f).Inspects h fun _ => True := by
  induction fuel generalizing visited f with
  | zero => exact inspects_fail _
  | succ fuel ih =>
      unfold walk
      split
      next => exact inspects_fail _
      next =>
        split
        next => exact inspects_pure trivial
        next =>
          apply Inspects.bind
          exact (inspects_spreadAll h _ _ _ _).mono fun f _ => ih _ _

end CommonAncestor

/-- A plan has the newest epoch of the heads, all of which have been loaded. -/
theorem Merge.inspects_plan (h : History κ) (heads : OrdSet κ) :
    (plan heads).Inspects h fun p =>
      ∃ commits, heads.toList.map h.get? = commits.map some ∧ p.epoch = newestEpoch commits := by
  apply Inspects.bind
  refine (inspects_loadCommits h _).mono fun commits hcommits => ?_
  apply Inspects.bind
  apply Inspects.bind
  refine inspects_ask trivial fun n _ => ?_
  refine (CommonAncestor.inspects_walk h heads n _ _).mono fun ancestor _ => ?_
  apply Inspects.bind
  refine (inspects_ofExcept _).mono fun edges _ => ?_
  exact inspects_pure ⟨commits, hcommits, rfl⟩

/-! ## Inspecting a store -/

namespace Store

abbrev logged (rule : IdRule κ) (fails : Fault → Prop) :
    Environment κ (Store κ × List (Exchange κ)) :=
  (environment rule fails fun _ => True).logged

variable {rule : IdRule κ} {fails : Fault → Prop} {s t : Store κ}
  {u v : Store κ × List (Exchange κ)}
  {r : Request κ} {a : Except Fault r.Answer}

/-- A store is as it was, and nothing has been asked of it but reads. -/
structure Quiet (s : Store κ) (u : Store κ × List (Exchange κ)) : Prop where
  eq : u.1 = s
  log : OnlyReads u.2

theorem quiet_nil (s : Store κ) : s.Quiet (s, []) := ⟨rfl, fun _ hx => absurd hx List.not_mem_nil⟩

theorem answer_of_isRead (hr : r.IsRead) (rule : IdRule κ) (s : Store κ) :
    (s.answer rule r).2 = s := by
  cases r with
  | loadCommit id =>
      simp only [answer]
      split <;> rfl
  | allHeads | activeHeads | loadSnapshot | countCommits => rfl
  | create | push | updateHeads | saveSnapshot => exact hr.elim

theorem Responds.eq_of_isRead (h : Responds rule fails r s a t) (hr : r.IsRead) : t = s := by
  rcases h with h | ⟨e, -, -, h | ⟨commits, rfl, -⟩⟩
  · rw [← answer_of_isRead hr rule s, h]
  · exact h
  · exact hr.elim

theorem Responds.faithful (h : Responds rule fails r s a t) : r.Faithful s.commits a := by
  cases r with
  | loadCommit id =>
      rintro c rfl
      have ha := h.answer_of_ok
      simp only [answer] at ha
      split at ha
      next hget =>
        cases ha
        exact hget
      next => cases ha
  | _ => trivial

theorem Quiet.next (hu : s.Quiet u) (hr : r.IsRead) (h : (logged rule fails).responds r u a v) :
    s.Quiet v := by
  obtain ⟨⟨ha, -⟩, hlog⟩ := h
  refine ⟨(ha.eq_of_isRead hr).trans hu.eq, fun x hx => ?_⟩
  rw [hlog] at hx
  rcases List.mem_append.1 hx with hx | hx
  · exact hu.log x hx
  · cases List.mem_singleton.1 hx
    exact hr

theorem quiet_refines : (logged rule fails).Refines (History.reading s.commits) (fun _ => ())
    s.Quiet := by
  refine ⟨fun _ _ => trivial, fun hu hr h => ⟨?_, hu.next hr h⟩⟩
  rw [← hu.eq]
  exact h.1.1.faithful

end Store

theorem Program.Inspects.ensures {rule : IdRule κ} {fails : Fault → Prop} {s : Store κ}
    {u : Store κ × List (Exchange κ)} {P : α → Prop} {p : Program κ α}
    (hp : p.Inspects s.commits P) (hu : s.Quiet u) :
    p.Ensures (Store.logged rule fails) (fun a v => P a ∧ s.Quiet v) (fun _ v => s.Quiet v) u := by
  have h : p.Ensures (Store.logged rule fails) (fun a v => P a ∧ s.Quiet v)
      (fun _ v => True ∧ s.Quiet v) u := Ensures.refine Store.quiet_refines hu hp
  exact h.mono (fun _ _ ha => ha) fun _ _ he => he.2

theorem Faulty.exists_logged {rule : IdRule κ} {rates : FaultRates} {p : Program κ α}
    {s t : Faulty (Store κ)} {o : Except Fault α}
    (h : p.run (repository rates (Store.repository rule)) s = (o, t)) :
    ∃ log, p.Runs (Store.logged rule (Injects s.enabled)) (s.inner, []) o (t.inner, log) := by
  have hrun := runs_inner rule rates p s
  rw [h] at hrun
  exact hrun.exists_logged []

end Confluence
