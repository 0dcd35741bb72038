import Confluence.Proofs.Concurrency.System
import Confluence.Proofs.History.Search

/-!
# What an operation may ask for while others work

An operation relies on little: between two of its requests the history only grows, stays graded,
and the heads stay stored. In return it keeps three rules. What it pushes lies above parents that
are stored or come along; once it has changed the heads it pushes nothing more; and when it changes
the heads, every head that it takes away, and every commit that it has pushed, is below one that it
adds. `environment` joins the two sides, so that a program keeps the rules against any other clients
just if it ensures anything at all in it.
-/

namespace Confluence

open History Program

variable {κ : Type} [CommitId κ]

structure Store.Rely (s t : Store κ) : Prop where
  history : Extends s.commits t.commits
  ready : t.Ready
  snapshots : t.snapshots = s.snapshots

theorem Store.Ready.rely {s : Store κ} (hs : s.Ready) : s.Rely s := ⟨.refl _, hs, rfl⟩

theorem Store.Rely.trans {s t u : Store κ} (hst : s.Rely t) (htu : t.Rely u) : s.Rely u :=
  ⟨hst.history.trans htu.history, htu.ready, htu.snapshots.trans hst.snapshots⟩

/-- What others do changes no answer to a reader, apart from counts. -/
theorem Store.Rely.answers {rule : IdRule κ} {fails : Fault → Prop} {s t u : Store κ}
    {r : Request κ} {a : Except Fault r.Answer} (hsu : s.Rely u) (hr : (s.view fails).Permits r)
    (ha : u.Responds rule fails r a t) : (s.view fails).Answers r a ∧ t = u := by
  have hru : (u.view fails).Permits r := by
    rcases View.permits_iff.1 hr with ⟨id, c, rfl, hc⟩ | ⟨id, rfl⟩ | rfl
    · exact ⟨c, hsu.history id c hc⟩
    · trivial
    · trivial
  obtain ⟨hans, rfl⟩ := (Store.environment_serves u).responds rfl hru
    (show (Store.environment rule fails fun _ => True).responds r u a t from ⟨ha, trivial⟩)
  refine ⟨?_, rfl⟩
  rcases hans with hfail | hans
  · exact .inl hfail
  · refine .inr ?_
    rcases View.permits_iff.1 hr with ⟨id, c, rfl, hc⟩ | ⟨id, rfl⟩ | rfl
    · obtain ⟨d, hd, rfl⟩ := hans
      obtain rfl : c = d := Option.some.inj ((hsu.history id c hc).symm.trans hd)
      exact ⟨c, hc, rfl⟩
    · rw [hans]
      change _ = Except.ok (s.snapshots.get? id)
      rw [← hsu.snapshots]
      rfl
    · obtain ⟨n, hn, rfl⟩ := hans
      exact ⟨n, Nat.le_trans hsu.history.size_le hn, rfl⟩

namespace Guard

def Fails (e : Fault) : Prop := e.isTransient = true

def Permits : Request κ → Store κ → Ledger κ → Prop
  | .push commits, s, l => l.published = false ∧ (commits.map Commit.id).Nodup ∧
      ∀ c ∈ commits, ∀ p ∈ c.parentIds,
        ∃ q, (s.commits.get? p = some q ∨ q ∈ commits ∧ q.id = p) ∧ q.level < c.level
  | .updateHeads added removed, s, l => ∀ x, x ∈ removed ∨ x ∈ l.pushed →
      ∃ y ∈ added, Ancestor s.commits x y
  | .saveSnapshot .., _, _ => False
  | _, _, _ => True

def environment (rule : IdRule κ) : Environment κ (Store κ × Ledger κ) where
  permits r st := Permits r st.1 st.2
  responds r st a st' :=
    ∃ u, st.1.Rely u ∧ u.Responds rule Fails r a st'.1 ∧ st'.2 = st.2.note r a

/-- A program that keeps the rules from a state on, whatever others do. -/
def Keeps (rule : IdRule κ) (p : Program κ α) (s : Store κ) (l : Ledger κ) : Prop :=
  p.Ensures (environment rule) (fun _ _ => True) (fun _ _ => True) (s, l)

variable {α β : Type} {rule : IdRule κ} {s t u : Store κ} {l : Ledger κ}

/-! ## The rules stay kept -/

theorem Permits.rely {r : Request κ} (hp : Permits r s l) (hr : s.Rely t) : Permits r t l := by
  cases r with
  | push commits =>
      obtain ⟨hl, hids, hparents⟩ := hp
      refine ⟨hl, hids, fun c hc p hpc => ?_⟩
      obtain ⟨q, hq, hlt⟩ := hparents c hc p hpc
      exact ⟨q, hq.imp_left (hr.history p q), hlt⟩
  | updateHeads added removed =>
      intro x hx
      obtain ⟨y, hy, hxy⟩ := hp x hx
      exact ⟨y, hy, hr.history.ancestor hxy⟩
  | saveSnapshot => exact hp.elim
  | create => trivial
  | allHeads => trivial
  | activeHeads => trivial
  | loadCommit => trivial
  | loadSnapshot => trivial
  | countCommits => trivial

/-- What others do does not make a program break the rules. -/
theorem Keeps.rely {p : Program κ α} (hp : Keeps rule p s l) (hr : s.Rely t) :
    Keeps rule p t l := by
  cases p with
  | done o => cases o <;> trivial
  | call r next =>
      refine ⟨hp.1.rely hr, fun a st ⟨u, hu, ha⟩ => ?_⟩
      exact hp.2 a st ⟨u, hr.trans hu, ha⟩

theorem Keeps.request {r : Request κ} {next : Except Fault r.Answer → Program κ α}
    (hp : Keeps rule (call r next) s l) (hs : s.Ready) {a : Except Fault r.Answer}
    (ha : s.Responds rule Fails r a t) :
    Permits r s l ∧ Keeps rule (next a) t (l.note r a) :=
  ⟨hp.1, hp.2 a (t, l.note r a) ⟨s, hs.rely, ha, rfl⟩⟩

/-! ## What a permitted request does -/

theorem ready_of_pushed {commits : List (Commit κ)} (hs : s.Ready) (hpushed : s.Pushed commits t)
    (hids : (commits.map Commit.id).Nodup)
    (hparents : ∀ c ∈ commits, ∀ p ∈ c.parentIds,
      ∃ q, (s.commits.get? p = some q ∨ q ∈ commits ∧ q.id = p) ∧ q.level < c.level) :
    t.Ready := by
  constructor
  · constructor
    · intro id c hc
      rw [hpushed.get?] at hc
      cases hold : s.commits.get? id with
      | some d =>
          rw [hold] at hc
          cases hc
          exact hs.graded.filed hold
      | none =>
          rw [hold, Option.none_or] at hc
          simpa using List.find?_some hc
    · intro id c p edge hc he
      have hpc : p ∈ c.parentIds := OrdMap.mem_keys.2 ⟨edge, he⟩
      rw [hpushed.get?] at hc
      cases hold : s.commits.get? id with
      | some d =>
          rw [hold] at hc
          cases hc
          obtain ⟨q, hq, hlt⟩ := hs.graded.parent hold he
          exact ⟨q, hpushed.history_extends p q hq, hlt⟩
      | none =>
          rw [hold, Option.none_or] at hc
          obtain ⟨q, hq | ⟨hq, rfl⟩, hlt⟩ :=
            hparents c (List.mem_of_find?_eq_some hc) p hpc
          · exact ⟨q, hpushed.history_extends p q hq, hlt⟩
          · obtain ⟨b, hb, hsame⟩ := hpushed.exists_sameContent hq hids
            simp only [Commit.sameContent, Bool.and_eq_true, decide_eq_true_eq] at hsame
            exact ⟨b, hb, by omega⟩
  · intro x hx
    rw [hpushed.heads] at hx
    obtain ⟨c, hc⟩ := hs.heads x hx
    exact ⟨c, hpushed.history_extends x c hc⟩

/-- What holds after a permitted request has been answered: others can rely on the store, what was
covered is covered, and if the heads were changed everything pushed before is covered. -/
structure Kept (s : Store κ) (l : Ledger κ) (publishes : Bool) (t : Store κ) : Prop where
  rely : s.Rely t
  covers : ∀ x, s.Covers x → t.Covers x
  published : publishes = true → ∀ x ∈ l.pushed, t.Covers x

theorem kept_of_eq (hs : s.Ready) (hcommits : t.commits = s.commits) (hheads : t.heads = s.heads)
    (hsnapshots : t.snapshots = s.snapshots) : Kept s l false t := by
  refine ⟨⟨hcommits ▸ .refl _, ⟨hcommits ▸ hs.graded, ?_⟩, hsnapshots⟩, fun x hx => ?_, ?_⟩
  · rw [hheads, hcommits]
    exact hs.heads
  · unfold Store.Covers
    rw [hheads, hcommits]
    exact hx
  · intro h
    cases h

theorem kept_of_push {commits : List (Commit κ)} (hs : s.Ready)
    (hp : Permits (.push commits) s l) (ht : s.push commits = (.ok (), t)) : Kept s l false t := by
  obtain ⟨-, hids, hparents⟩ := hp
  have hpushed := Store.push_eq_ok_iff.1 ht
  refine ⟨⟨hpushed.history_extends, ready_of_pushed hs hpushed hids hparents, hpushed.snapshots⟩,
    ?_, ?_⟩
  · rintro x ⟨y, hy, hxy⟩
    exact ⟨y, hpushed.heads ▸ hy, hpushed.history_extends.ancestor hxy⟩
  · intro h
    cases h

/-- Where a head is taken away its descendant takes over what it covered. -/
theorem kept_of_updateHeads {added removed : OrdSet κ} (hs : s.Ready)
    (hp : Permits (.updateHeads added removed) s l)
    (ht : s.updateHeads added removed = (.ok (), t)) :
    Kept s l true t := by
  have hmoved := Store.updateHeads_eq_ok ht
  have hcommits := hmoved.commits
  refine ⟨⟨hcommits ▸ .refl _, ⟨hcommits ▸ hs.graded, fun x hx => ?_⟩, hmoved.snapshots⟩, ?_, ?_⟩
  · rw [hcommits]
    rcases (hmoved.heads x).1 hx with hx | ⟨hx, -⟩
    · exact hmoved.stored x hx
    · exact hs.heads x hx
  · rintro x ⟨y, hy, hxy⟩
    unfold Store.Covers
    rw [hcommits]
    by_cases hr : y ∈ removed
    · obtain ⟨z, hz, hyz⟩ := hp y (.inl hr)
      exact ⟨z, (hmoved.heads z).2 (.inl hz), hxy.trans hyz⟩
    · exact ⟨y, (hmoved.heads y).2 (.inr ⟨hy, hr⟩), hxy⟩
  · intro _ x hx
    unfold Store.Covers
    rw [hcommits]
    obtain ⟨y, hy, hxy⟩ := hp x (.inr hx)
    exact ⟨y, (hmoved.heads y).2 (.inl hy), hxy⟩

/-- A permitted request keeps what others rely on, however it is answered. -/
theorem kept_of_responds {r : Request κ} {a : Except Fault r.Answer} (hs : s.Ready)
    (hp : Permits r s l) (ha : s.Responds rule Fails r a t) :
    Kept s l (r.publishes a) t := by
  rcases ha with ha | ⟨e, -, rfl, rfl | ⟨commits, rfl, ht⟩⟩
  · cases r with
    | push commits =>
        have hpub : Request.publishes (.push commits) a = false := rfl
        rw [hpub]
        cases a with
        | ok v => exact kept_of_push hs hp ha
        | error e =>
            rw [Store.atomic_push s commits e t ha]
            exact kept_of_eq hs rfl rfl rfl
    | updateHeads added removed =>
        cases a with
        | ok v => exact kept_of_updateHeads hs hp ha
        | error e =>
            rw [Store.atomic_updateHeads s added removed e t ha]
            exact kept_of_eq hs rfl rfl rfl
    | create =>
        cases ha
        exact kept_of_eq hs rfl rfl rfl
    | loadCommit id =>
        simp only [Store.answer] at ha
        split at ha
        all_goals
          cases ha
          exact kept_of_eq hs rfl rfl rfl
    | saveSnapshot => exact hp.elim
    | allHeads =>
        cases ha
        exact kept_of_eq hs rfl rfl rfl
    | activeHeads =>
        cases ha
        exact kept_of_eq hs rfl rfl rfl
    | loadSnapshot =>
        cases ha
        exact kept_of_eq hs rfl rfl rfl
    | countCommits =>
        cases ha
        exact kept_of_eq hs rfl rfl rfl
  · have hpub : r.publishes (.error e) = false := by cases r <;> rfl
    rw [hpub]
    exact kept_of_eq hs rfl rfl rfl
  · exact kept_of_push hs hp ht

/-! ## Programs that keep the rules -/

theorem note_of_reads {r : Request κ} (hr : (s.view Fails).Permits r) (a : Except Fault r.Answer) :
    l.note r a = l := by
  rcases View.permits_iff.1 hr with ⟨id, c, rfl, -⟩ | ⟨id, rfl⟩ | rfl
  all_goals simp [Ledger.note, Request.pushes, Request.publishes]

theorem environment_serves (s : Store κ) (l : Ledger κ) :
    (environment rule).Serves (s.view Fails) fun st => s.Rely st.1 ∧ st.2 = l := by
  constructor
  · rintro r st - hr
    rcases View.permits_iff.1 hr with ⟨id, c, rfl, -⟩ | ⟨id, rfl⟩ | rfl <;> trivial
  · rintro r st a st' ⟨hs, rfl⟩ hr ⟨u, hu, ha, hl⟩
    have hsu := hs.trans hu
    obtain ⟨hans, hst⟩ := hsu.answers hr ha
    exact ⟨hans, hst ▸ hsu, hl.trans (note_of_reads hr a)⟩

theorem Keeps.bind_reads {p : Program κ α} {f : α → Program κ β} {P : α → Prop} (hs : s.Ready)
    (hp : p.Reads (s.view Fails) P fun _ => True)
    (hf : ∀ a t, P a → s.Rely t → Keeps rule (f a) t l) : Keeps rule (p >>= f) s l := by
  apply Ensures.bind
  refine (hp.ensures (environment_serves s l) ⟨hs.rely, rfl⟩).mono ?_ fun _ _ _ => trivial
  rintro a ⟨t, l'⟩ ⟨ha, ht, rfl⟩
  exact hf a t ha ht

theorem Keeps.bind_ask {r : Request κ} {f : r.Answer → Program κ β}
    (hr : Permits r s l)
    (hf : ∀ u t a, s.Rely u → u.Rely t → u.answer rule r = (.ok a, t) →
      Keeps rule (f a) t (l.note r (.ok a))) : Keeps rule (ask r >>= f) s l := by
  apply Ensures.bind
  refine ensures_ask hr (fun a st hst => ?_) fun _ _ _ => trivial
  obtain ⟨u, hu, ha, hl⟩ := hst
  obtain ⟨t, l'⟩ := st
  obtain rfl : l' = l.note r (.ok a) := hl
  have hkept := kept_of_responds hu.ready (hr.rely hu) ha
  exact hf u t a hu hkept.rely ha.answer_of_ok

theorem keeps_ask {r : Request κ} (hr : Permits r s l) : Keeps rule (ask r) s l :=
  ensures_ask hr (fun _ _ _ => trivial) fun _ _ _ => trivial

theorem keeps_pure (a : α) : Keeps rule (pure a) s l := trivial

end Guard

end Confluence
