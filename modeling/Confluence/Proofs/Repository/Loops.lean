import Confluence.Proofs.History.Roaming
import Confluence.Proofs.Repository.Logs

/-!
# Loops without a bound

The number of stored commits bounds every walk through a history. Behind such a walk stands a loop
that knows no bound: it takes a commit up, asks somebody else about it, and goes on or stops.
`Turns` runs a loop and notes the commits that it takes up and those that it asks the repository
for. A loop that does not go on without a commit ends if there is a limit to the commits that it
takes up, and a walk of as many steps comes to the same.
-/

namespace Confluence

open History Program

variable {κ σ τ α β : Type} [CommitId κ]

/-! ## Commits asked for -/

def Request.loads : Request κ → List κ
  | loadCommit id => [id]
  | _ => []

namespace Program

def loads (repository : Repository κ τ) : Program κ α → τ → List κ
  | done _, _ => []
  | call r next, t =>
    r.loads ++ (next (repository.answer r t).1).loads repository (repository.answer r t).2

variable {repository : Repository κ τ} {p : Program κ α} {f : α → Program κ β} {t u : τ}

@[simp] theorem loads_pure (a : α) : (pure a : Program κ α).loads repository t = [] := rfl

@[simp] theorem loads_fail (e : Fault) : (fail e : Program κ α).loads repository t = [] := rfl

theorem loads_bind_ok {a : α} (h : p.run repository t = (.ok a, u)) :
    (p >>= f).loads repository t = p.loads repository t ++ (f a).loads repository u := by
  induction p generalizing t with
  | done o =>
      cases h
      rfl
  | call r next ih => exact (congrArg (r.loads ++ ·) (ih _ h)).trans (List.append_assoc ..).symm

theorem loads_bind_error {e : Fault} (h : p.run repository t = (.error e, u)) :
    (p >>= f).loads repository t = p.loads repository t := by
  induction p generalizing t with
  | done o =>
      cases h
      rfl
  | call r next ih => exact congrArg (r.loads ++ ·) (ih _ h)

theorem loads_attempt (p : Program κ α) (repository : Repository κ τ) (t : τ) :
    p.attempt.loads repository t = p.loads repository t := by
  induction p generalizing t with
  | done o => rfl
  | call r next ih => exact congrArg (r.loads ++ ·) (ih _ _)

theorem run_attempt (p : Program κ α) (repository : Repository κ τ) (t : τ) :
    p.attempt.run repository t = (.ok (p.run repository t).1, (p.run repository t).2) := by
  induction p generalizing t with
  | done o => rfl
  | call r next ih => exact ih _ _

theorem run_attempt_bind {f : Except Fault α → Program κ β} {o : Except Fault α}
    (h : p.run repository t = (o, u)) :
    (p.attempt >>= f).run repository t = (f o).run repository u :=
  run_bind_ok ((run_attempt p repository t).trans (by rw [h]))

theorem loads_attempt_bind {f : Except Fault α → Program κ β} {o : Except Fault α}
    (h : p.run repository t = (o, u)) :
    (p.attempt >>= f).loads repository t = p.loads repository t ++ (f o).loads repository u := by
  rw [loads_bind_ok (run_attempt p repository t), loads_attempt, h]

def Alike (repository : Repository κ τ) (t : τ) (p q : Program κ α) : Prop :=
  p.run repository t = q.run repository t ∧ p.loads repository t = q.loads repository t

theorem alike_bind {g : α → Program κ β} (hfg : ∀ a u, p.run repository t = (.ok a, u) →
    Alike repository u (f a) (g a)) : Alike repository t (p >>= f) (p >>= g) := by
  rcases hp : p.run repository t with ⟨e | a, u⟩
  · exact ⟨by rw [run_bind_error hp, run_bind_error hp],
      by rw [loads_bind_error hp, loads_bind_error hp]⟩
  · obtain ⟨hrun, hloads⟩ := hfg a u hp
    exact ⟨by rw [run_bind_ok hp, run_bind_ok hp, hrun],
      by rw [loads_bind_ok hp, loads_bind_ok hp, hloads]⟩

theorem alike_countCommits (rule : IdRule κ) (s : Store κ) (f : Nat → Program κ α) :
    Alike (Store.repository rule) s (countCommits >>= f) (f s.commits.size) :=
  ⟨rfl, rfl⟩

theorem Inspects.run_snd {P : α → Prop} {s : Store κ} (hp : p.Inspects s.commits P)
    (rule : IdRule κ) : (p.run (Store.repository rule) s).2 = s := by
  obtain ⟨log, hlogged⟩ :=
    (Store.runs_of_run rule (fun _ => False) p s).exists_logged []
  have houtcome := (hp.ensures (Store.quiet_nil s)).of_runs hlogged
  cases ho : (p.run (Store.repository rule) s).1 with
  | ok a =>
      rw [ho] at houtcome
      exact houtcome.2.eq
  | error e =>
      rw [ho] at houtcome
      exact houtcome.eq

theorem Inspects.attempt {P : α → Prop} {h : History κ} (hp : p.Inspects h P) :
    p.attempt.Inspects h fun _ => True :=
  Ensures.attempt (Ensures.mono hp (fun _ _ _ => trivial) fun _ _ _ => trivial)

theorem alike_loadCommits_bind (rule : IdRule κ) (s : Store κ) (ids : List κ)
    {f g : List (Commit κ) → Program κ α}
    (hfg : ∀ cs, Alike (Store.repository rule) s (f cs) (g cs)) :
    Alike (Store.repository rule) s (loadCommits ids >>= f) (loadCommits ids >>= g) := by
  refine alike_bind fun cs u hrun => ?_
  have hu := (inspects_loadCommits s.commits ids).run_snd rule
  rw [hrun] at hu
  obtain rfl : u = s := hu
  exact hfg cs

theorem loadCommit_cases (rule : IdRule κ) (s : Store κ) (id : κ) :
    (∃ c, s.commits.get? id = some c ∧
      (loadCommit id).run (Store.repository rule) s = (.ok c, s)) ∨
    ∃ e, (loadCommit id).run (Store.repository rule) s = (.error e, s) := by
  have hrun : (loadCommit id).run (Store.repository rule) s = s.answer rule (.loadCommit id) := rfl
  rw [hrun]
  cases hc : s.commits.get? id with
  | none => exact .inr ⟨Store.missing id, by simp only [Store.answer, hc]⟩
  | some c => exact .inl ⟨c, rfl, by simp only [Store.answer, hc]⟩

/-- Either all commits of a list are loaded, in this order, or one of them is missing and those
behind it are not asked for. -/
theorem loadCommits_cases (rule : IdRule κ) (s : Store κ) (ids : List κ) :
    (∃ cs, (loadCommits ids).run (Store.repository rule) s = (.ok cs, s) ∧
      (loadCommits ids).loads (Store.repository rule) s = ids ∧
      ids.map s.commits.get? = cs.map some) ∨
    ∃ e, (loadCommits ids).run (Store.repository rule) s = (.error e, s) ∧
      (loadCommits ids).loads (Store.repository rule) s <+: ids := by
  induction ids with
  | nil => exact .inl ⟨[], rfl, rfl, rfl⟩
  | cons id ids ih =>
      have hload : (loadCommit id).loads (Store.repository rule) s = [id] := rfl
      rcases loadCommit_cases rule s id with ⟨c, hc, hrun⟩ | ⟨e, hrun⟩
      · rw [loadCommits, run_bind_ok hrun, loads_bind_ok hrun, hload]
        rcases ih with ⟨cs, hcs, hloads, hget⟩ | ⟨e, he, hloads⟩
        · refine .inl ⟨c :: cs, run_bind_ok hcs, ?_, ?_⟩
          · rw [loads_bind_ok hcs, hloads]
            exact congrArg (id :: ·) (List.append_nil ids)
          · rw [List.map_cons, List.map_cons, hc, hget]
        · refine .inr ⟨e, run_bind_error he, ?_⟩
          rw [loads_bind_error he]
          exact (List.prefix_append_right_inj [id]).2 hloads
      · refine .inr ⟨e, run_bind_error hrun, ?_⟩
        rw [loadCommits, loads_bind_error hrun, hload]
        exact ⟨ids, rfl⟩

end Program

theorem Store.filed_run (rule : IdRule κ) (p : Program κ α) {s : Store κ}
    (hs : Filed s.commits) : Filed (p.run (repository rule) s).2.commits := by
  induction p generalizing s with
  | done o => exact hs
  | call r next ih =>
      refine ih _ (s := (s.answer rule r).2) ?_
      rcases commits_answer rule r s with ⟨hc, -⟩ | ⟨batch, t, -, hp, ht⟩
      · rw [hc]
        exact hs
      · rw [ht]
        exact hp.filed hs

/-! ## Loops -/

/-- A loop without a bound. Every turn takes up a commit if there is one left, asks somebody else
about it, and goes on in another state or stops. -/
structure Loop (κ : Type) [CommitId κ] (σ β α : Type) where
  start : Program κ (σ ⊕ α)
  current : σ → Option κ
  consult : σ → Program κ β
  turn : σ → Except Fault β → Program κ (σ ⊕ α)

namespace Loop

/-- The runs of a loop: the commits that it has taken up and those that it has asked for, beside
what others ask for, with the point where it stands. -/
inductive Turns (l : Loop κ σ β α) (repository : Repository κ τ) (t : τ) :
    List κ → List κ → Except Fault (σ ⊕ α) → τ → Prop where
  | start {o : Except Fault (σ ⊕ α)} {u : τ} (begun : l.start.run repository t = (o, u)) :
      Turns l repository t [] (l.start.loads repository t) o u
  | turn {visits loads : List κ} {s : σ} {b : Except Fault β} {o : Except Fault (σ ⊕ α)} {u v w : τ}
      (before : Turns l repository t visits loads (.ok (.inl s)) u)
      (consulted : (l.consult s).run repository u = (b, v))
      (taken : (l.turn s b).run repository v = (o, w)) :
      Turns l repository t (visits ++ (l.current s).toList)
        (loads ++ (l.turn s b).loads repository v) o w

def Stops (l : Loop κ σ β α) (repository : Repository κ τ) (t : τ) : Prop :=
  ∃ (visits loads : List κ) (o : Except Fault α) (u : τ),
    l.Turns repository t visits loads (o.map .inr) u

def LoadsAlone (l : Loop κ σ β α) (repository : Repository κ τ) : Prop :=
  ∀ s t, (l.consult s).loads repository t = []

/-- A loop comes to an end, and a program to the same. It asks for the same commits, unless others
ask for some. -/
def EndsAs (l : Loop κ σ β α) (repository : Repository κ τ) (t : τ) (p : Program κ α) : Prop :=
  ∃ (visits loads : List κ) (o : Except Fault α) (u : τ),
    l.Turns repository t visits loads (o.map .inr) u ∧ p.run repository t = (o, u) ∧
      (l.LoadsAlone repository → p.loads repository t = loads)

def NeedsCommits (l : Loop κ σ β α) : Prop :=
  ∀ s b, l.current s = none → ∃ o : Except Fault α, l.turn s b = .done (o.map .inr)

/-- A walk makes at most as many turns of a loop as it is told, and none when no commit is left. -/
structure Bounds (l : Loop κ σ β α) (walk : Nat → σ → Program κ α) : Prop where
  succ : ∀ n s, walk (n + 1) s =
    (l.consult s).attempt >>= fun b => l.turn s b >>= Sum.elim (walk n) pure
  idle : ∀ s, l.current s = none → walk 1 s = walk 0 s

variable {l : Loop κ σ β α} {repository : Repository κ τ} {t u : τ} {visits loads : List κ} {s : σ}

theorem outcome_cases (o : Except Fault (σ ⊕ α)) :
    (∃ s, o = .ok (.inl s)) ∨ ∃ o' : Except Fault α, o = o'.map .inr := by
  rcases o with e | s | a
  · exact .inr ⟨.error e, rfl⟩
  · exact .inl ⟨s, rfl⟩
  · exact .inr ⟨.ok a, rfl⟩

theorem NeedsCommits.length_current (hl : l.NeedsCommits) {b : Except Fault β} {s' : σ} {v : τ}
    (h : (l.turn s b).run repository u = (.ok (.inl s'), v)) :
    (l.current s).toList.length = 1 := by
  cases hc : l.current s with
  | some id => rfl
  | none =>
      obtain ⟨o, ho⟩ := hl s b hc
      rw [ho] at h
      cases o <;> cases h

/-- A loop ends if there is a limit to the commits that it takes up. -/
theorem NeedsCommits.stops (hl : l.NeedsCommits) (limit : Nat)
    (hlimit : ∀ visits loads s u, l.Turns repository t visits loads (.ok (.inl s)) u →
      visits.length ≤ limit) : l.Stops repository t := by
  have hgo (n : Nat) : ∀ visits loads s u, l.Turns repository t visits loads (.ok (.inl s)) u →
      limit < n + visits.length → l.Stops repository t := by
    induction n with
    | zero =>
        intro visits loads s u h hn
        have hle := hlimit visits loads s u h
        omega
    | succ n ih =>
        intro visits loads s u h hn
        rcases hb : (l.consult s).run repository u with ⟨b, v⟩
        rcases ho : (l.turn s b).run repository v with ⟨o, w⟩
        rcases outcome_cases o with ⟨s', rfl⟩ | ⟨o, rfl⟩
        · refine ih _ _ s' w (.turn h hb ho) ?_
          rw [List.length_append, hl.length_current ho]
          omega
        · exact ⟨_, _, o, w, .turn h hb ho⟩
  rcases ho : l.start.run repository t with ⟨o, u⟩
  rcases outcome_cases o with ⟨s, rfl⟩ | ⟨o, rfl⟩
  · exact hgo (limit + 1) [] _ s u (.start ho) (by omega)
  · exact ⟨_, _, o, u, .start ho⟩

/-- A walk that has made the turns of a loop goes on like the loop. -/
theorem Turns.run_walk {walk : Nat → σ → Program κ α} (hl : l.NeedsCommits) (hw : l.Bounds walk)
    {o : Except Fault (σ ⊕ α)} (h : l.Turns repository t visits loads o u) (ho : o = .ok (.inl s))
    (n : Nat) :
    (l.start >>= Sum.elim (walk (n + visits.length)) pure).run repository t =
        (walk n s).run repository u ∧
      (l.LoadsAlone repository →
        (l.start >>= Sum.elim (walk (n + visits.length)) pure).loads repository t =
          loads ++ (walk n s).loads repository u) := by
  induction h generalizing s n with
  | start begun =>
      subst ho
      exact ⟨run_bind_ok begun, fun _ => loads_bind_ok begun⟩
  | @turn visits loads s' b o u v w before consulted taken ih =>
      subst ho
      have hlength : n + (visits ++ (l.current s').toList).length = n + 1 + visits.length := by
        rw [List.length_append, hl.length_current taken]
        omega
      obtain ⟨hrun, hloads⟩ := ih rfl (n + 1)
      rw [hlength]
      constructor
      · rw [hrun, hw.succ, run_attempt_bind consulted, run_bind_ok taken]
        rfl
      · intro halone
        rw [hloads halone, hw.succ, loads_attempt_bind consulted, halone, loads_bind_ok taken,
          List.nil_append, List.append_assoc]
        rfl

theorem run_elim {p : Program κ (σ ⊕ α)} {f : σ → Program κ α} {o : Except Fault α}
    (h : p.run repository t = (o.map .inr, u)) :
    (p >>= Sum.elim f pure).run repository t = (o, u) ∧
      (p >>= Sum.elim f pure).loads repository t = p.loads repository t := by
  cases o with
  | error e => exact ⟨run_bind_error h, loads_bind_error h⟩
  | ok a => exact ⟨run_bind_ok h, (loads_bind_ok h).trans (List.append_nil _)⟩

/-- A walk comes to the same as the loop if the number of its steps is above that of the commits
that the loop has taken up whenever one is left. -/
theorem Bounds.endsAs {walk : Nat → σ → Program κ α} (hw : l.Bounds walk) (hl : l.NeedsCommits)
    (limit : Nat) (hlimit : ∀ visits loads s u, l.Turns repository t visits loads (.ok (.inl s)) u →
      visits.length ≤ limit ∧ (l.current s ≠ none → visits.length < limit)) :
    l.EndsAs repository t (l.start >>= Sum.elim (walk limit) pure) := by
  obtain ⟨visits, loads, o, w, h⟩ := hl.stops limit fun visits loads s u h =>
    (hlimit visits loads s u h).1
  refine ⟨visits, loads, o, w, h, ?_⟩
  generalize ho : o.map Sum.inr = o' at h
  cases h with
  | start begun =>
      obtain ⟨hrun, hloads⟩ := run_elim (f := walk limit) (o := o) (by rw [begun, ho])
      exact ⟨hrun, fun _ => hloads⟩
  | @turn visits loads s b _ u v _ before consulted taken =>
      obtain ⟨hle, hlt⟩ := hlimit _ _ s u before
      obtain ⟨n, rfl⟩ := Nat.exists_eq_add_of_le' hle
      obtain ⟨hrun, hloads⟩ := before.run_walk hl hw rfl n
      have hlast (n : Nat) : (walk (n + 1) s).run repository u = (o, w) ∧
          (l.LoadsAlone repository →
            (walk (n + 1) s).loads repository u = (l.turn s b).loads repository v) := by
        obtain ⟨hrun, hloads⟩ := run_elim (f := walk n) (o := o) (by rw [taken, ho])
        rw [hw.succ, run_attempt_bind consulted, loads_attempt_bind consulted]
        exact ⟨hrun, fun halone => by rw [halone, hloads, List.nil_append]⟩
      have hend : (walk n s).run repository u = (o, w) ∧
          (l.LoadsAlone repository →
            (walk n s).loads repository u = (l.turn s b).loads repository v) := by
        cases n with
        | succ n => exact hlast n
        | zero =>
            have hidle : l.current s = none := by
              by_contra hc
              have hlt := hlt hc
              omega
            rw [← hw.idle s hidle]
            exact hlast 0
      exact ⟨hrun.trans hend.1, fun halone => by rw [hloads halone, hend.2 halone]⟩

theorem EndsAs.congr {p q : Program κ α} (h : l.EndsAs repository t p)
    (hq : Alike repository t q p) : l.EndsAs repository t q := by
  obtain ⟨visits, loads, o, u, hturns, hrun, hloads⟩ := h
  exact ⟨visits, loads, o, u, hturns, hq.1.trans hrun, fun halone => hq.2.trans (hloads halone)⟩

/-! ## Loops over a store -/

section

variable {rule : IdRule κ} {s t : Store κ} {heads : OrdSet κ} {p : σ} {o : Except Fault (σ ⊕ α)}

/-- At whatever turn, no commit has been taken up twice or asked for twice, and those that have been
taken up lie below the heads. -/
def Spares (l : Loop κ σ β α) (rule : IdRule κ) (s : Store κ) (heads : OrdSet κ) : Prop :=
  ∀ visits loads o t, l.Turns (Store.repository rule) s visits loads o t →
    Sparing t.commits heads visits loads

structure OnlyReads (l : Loop κ σ β α) : Prop where
  start : ∀ h, l.start.Inspects h fun _ => True
  turn : ∀ h p b, (l.turn p b).Inspects h fun _ => True

def Stands (I : History κ → List κ → List κ → σ → Prop) (heads : OrdSet κ) (h : History κ)
    (visits loads : List κ) : Except Fault (σ ⊕ α) → Prop
  | .ok (.inl p) => I h visits loads p
  | _ => Sparing h heads visits loads

section

variable {I : History κ → List κ → List κ → σ → Prop} {visits loads ids : List κ}
  {f : List (Commit κ) → σ}

/-- A loop that goes on with loaded commits, or stops with the fault of one that is missing. -/
theorem stands_load (rule : IdRule κ)
    (hloaded : ∀ cs, ids.map s.commits.get? = cs.map some →
      I s.commits visits (loads ++ ids) (f cs))
    (hmissing : ∀ asked, asked <+: ids → Sparing s.commits heads visits (loads ++ asked)) :
    let p : Program κ (σ ⊕ α) := loadCommits ids >>= fun cs => pure (.inl (f cs))
    Stands I heads s.commits visits (loads ++ p.loads (Store.repository rule) s)
      (p.run (Store.repository rule) s).1 := by
  intro p
  rcases loadCommits_cases rule s ids with ⟨cs, hrun, hloads, hget⟩ | ⟨e, hrun, hloads⟩
  · rw [run_bind_ok hrun, loads_bind_ok hrun, hloads, loads_pure, List.append_nil]
    exact hloaded cs hget
  · rw [run_bind_error hrun, loads_bind_error hrun]
    exact hmissing _ hloads

theorem stands_attempt_load (rule : IdRule κ) {r : Fault → α}
    {q : Except Fault (List (Commit κ)) → Program κ (σ ⊕ α)}
    (hok : ∀ cs, q (.ok cs) = pure (.inl (f cs)))
    (herror : ∀ e, q (.error e) = pure (.inr (r e)))
    (hloaded : ∀ cs, ids.map s.commits.get? = cs.map some →
      I s.commits visits (loads ++ ids) (f cs))
    (hmissing : ∀ asked, asked <+: ids → Sparing s.commits heads visits (loads ++ asked)) :
    Stands I heads s.commits visits
      (loads ++ ((loadCommits ids).attempt >>= q).loads (Store.repository rule) s)
      (((loadCommits ids).attempt >>= q).run (Store.repository rule) s).1 := by
  rcases loadCommits_cases rule s ids with ⟨cs, hrun, hloads, hget⟩ | ⟨e, hrun, hloads⟩
  · rw [run_attempt_bind hrun, loads_attempt_bind hrun, hok, hloads, loads_pure, List.append_nil]
    exact hloaded cs hget
  · rw [run_attempt_bind hrun, loads_attempt_bind hrun, herror, loads_pure, List.append_nil]
    exact hmissing _ hloads

end

/-- A property of histories, commits taken up, commits asked for, and states that a loop keeps, also
while others add to the history, and that shows that it spares. -/
structure Keeps (l : Loop κ σ β α) (rule : IdRule κ) (heads : OrdSet κ)
    (I : History κ → List κ → List κ → σ → Prop) : Prop where
  sparing : ∀ {h visits loads p}, I h visits loads p → Sparing h heads visits loads
  grow : ∀ {h g visits loads p}, I h visits loads p → h.Extends g → I g visits loads p
  start : ∀ {s : Store κ}, Filed s.commits →
    Stands I heads s.commits [] (l.start.loads (Store.repository rule) s)
      (l.start.run (Store.repository rule) s).1
  turn : ∀ {s : Store κ} {visits loads p} (b : Except Fault β), Filed s.commits →
    I s.commits visits loads p →
      Stands I heads s.commits (visits ++ (l.current p).toList)
        (loads ++ (l.turn p b).loads (Store.repository rule) s)
        ((l.turn p b).run (Store.repository rule) s).1

variable {I : History κ → List κ → List κ → σ → Prop}

theorem Keeps.stands (hk : l.Keeps rule heads I) (hl : l.OnlyReads) (hs : Filed s.commits)
    (h : l.Turns (Store.repository rule) s visits loads o t) :
    Filed t.commits ∧ Stands I heads t.commits visits loads o := by
  induction h with
  | @start o u begun =>
      have hstart := hk.start hs
      have hu := (hl.start s.commits).run_snd rule
      rw [begun] at hstart hu
      obtain rfl : u = s := hu
      exact ⟨hs, hstart⟩
  | @turn visits loads p b o u v w before consulted taken ih =>
      have hfiled := Store.filed_run rule (l.consult p) ih.1
      have hextends := Store.history_extends_run rule (l.consult p) u
      rw [consulted] at hfiled hextends
      have hturn := hk.turn b hfiled (hk.grow ih.2 hextends)
      have hw := (hl.turn v.commits p b).run_snd rule
      rw [taken] at hturn hw
      obtain rfl : w = v := hw
      exact ⟨hfiled, hturn⟩

theorem Keeps.spares (hk : l.Keeps rule heads I) (hl : l.OnlyReads) (hs : Filed s.commits) :
    l.Spares rule s heads := by
  intro visits loads o t h
  have hstands := (hk.stands hl hs h).2
  rcases o with e | p | a
  · exact hstands
  · exact hk.sparing hstands
  · exact hstands

def AsksQuietly (l : Loop κ σ β α) (rule : IdRule κ) (s : Store κ) : Prop :=
  ∀ p t, t.commits = s.commits →
    ((l.consult p).run (Store.repository rule) t).2.commits = s.commits

theorem Turns.commits_eq (hl : l.OnlyReads) (hq : l.AsksQuietly rule s)
    (h : l.Turns (Store.repository rule) s visits loads o t) : t.commits = s.commits := by
  induction h with
  | start begun =>
      have hu := (hl.start s.commits).run_snd rule
      rw [begun] at hu
      exact congrArg Store.commits hu
  | @turn visits loads p b o u v w before consulted taken ih =>
      have hv := hq p u ih
      have hw := (hl.turn v.commits p b).run_snd rule
      rw [consulted] at hv
      rw [taken] at hw
      exact (congrArg Store.commits hw).trans hv

/-- A loop ends as a walk does whose steps are enough for what it keeps. -/
theorem Keeps.endsAs (hk : l.Keeps rule heads I) (hl : l.OnlyReads) (hq : l.AsksQuietly rule s)
    (hs : Filed s.commits) (hn : l.NeedsCommits) {walk : Nat → σ → Program κ α}
    (hw : l.Bounds walk) (limit : Nat) (hlimit : ∀ {visits loads p}, I s.commits visits loads p →
      visits.length ≤ limit ∧ (l.current p ≠ none → visits.length < limit)) :
    l.EndsAs (Store.repository rule) s (l.start >>= Sum.elim (walk limit) pure) := by
  refine hw.endsAs hn limit fun visits loads p t h => ?_
  have hstands : I t.commits visits loads p := (hk.stands hl hs h).2
  rw [h.commits_eq hl hq] at hstands
  exact hlimit hstands

structure Serves (l : Loop κ σ β α) (rule : IdRule κ) (s : Store κ) (heads : OrdSet κ)
    (q : Program κ α) : Prop where
  spares : l.Spares rule s heads
  endsAs : l.EndsAs (Store.repository rule) s q
  loaded_once : (q.loads (Store.repository rule) s).Nodup

theorem EndsAs.serves {q : Program κ α} (hq : l.EndsAs (Store.repository rule) s q)
    (hl : l.Spares rule s heads) (halone : l.LoadsAlone (Store.repository rule)) :
    l.Serves rule s heads q where
  spares := hl
  endsAs := hq
  loaded_once := by
    obtain ⟨visits, loads, o, u, hturns, -, hloads⟩ := hq
    rw [hloads halone]
    exact (hl _ _ _ _ hturns).loaded_once

def Overgrows (l : Loop κ σ β α) (rule : IdRule κ) (s : Store κ) : Prop :=
  ∀ n, ∃ visits loads p t,
    l.Turns (Store.repository rule) s visits loads (.ok (.inl p)) t ∧ n < t.commits.size

/-- Whatever others do, a loop ends unless they store commits without end. -/
theorem Keeps.stops_or_overgrows (hk : l.Keeps rule heads I) (hl : l.OnlyReads)
    (hs : Filed s.commits) (hn : l.NeedsCommits)
    (hsize : ∀ {h visits loads p}, h.Filed → I h visits loads p → visits.length ≤ h.size) :
    l.Stops (Store.repository rule) s ∨ l.Overgrows rule s := by
  refine or_iff_not_imp_right.2 fun hgrows => ?_
  obtain ⟨n, hbound⟩ := not_forall.1 hgrows
  refine hn.stops n fun visits loads p t h => ?_
  obtain ⟨hfiled, hstands⟩ := hk.stands hl hs h
  refine Nat.le_trans (hsize hfiled hstands) (Nat.le_of_not_lt fun hlt => ?_)
  exact hbound ⟨visits, loads, p, t, h, hlt⟩

end

end Loop

end Confluence
