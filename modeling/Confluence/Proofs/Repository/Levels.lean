import Confluence.Proofs.Repository.Responses

/-!
# Levels of stored commits

A push compares a commit with the parents whose levels are known, but not with the children that
were stored before it, and of several commits with one id in a batch it compares with the last
while it stores the first. So a store can come to hold a commit at or above the level of a child,
and even a cycle. It does so exactly by a late push: one that stores a commit no lower than a child
that it was not compared with. As long as no push is late, levels rise along every edge between
stored commits, and then no commit is above itself.
-/

namespace Confluence

variable {κ : Type} [CommitId κ]

namespace Store

open History

variable {s t : Store κ} {batch : List (Commit κ)} {q c : Commit κ} {id : κ}

/-! ## Late pushes -/

/-- A batch that is accepted stores this commit: its id is new, and it is the first with it. -/
def Enters (s : Store κ) (batch : List (Commit κ)) (q : Commit κ) : Prop :=
  s.commits.get? q.id = none ∧ (batch.find? fun c => c.id = q.id) = some q

/-- A batch stores `q` no lower than its child `c`. Either the child was stored before, or it comes
in the same batch and lies above another commit with the id of `q`, the last one there. -/
structure Late (s : Store κ) (batch : List (Commit κ)) (q c : Commit κ) : Prop where
  enters : s.Enters batch q
  parent : q.id ∈ c.parentIds
  level : c.level ≤ q.level
  child : s.commits.get? c.id = some c ∨ s.Enters batch c ∧
    ∃ r, (batch.reverse.find? fun d => d.id = q.id) = some r ∧ r.level < c.level

/-- Of several commits with one id the last one is compared with. -/
theorem get?_batchLevels (batch : List (Commit κ)) (id : κ) :
    (batchLevels batch).get? id = (batch.reverse.find? fun c => c.id = id).map Commit.level := by
  have hfold (m : OrdMap κ Nat) :
      (m.insertMany (batch.map fun c => (c.id, c.level))).get? id =
        ((batch.reverse.find? fun c => c.id = id).map Commit.level).or (m.get? id) := by
    induction batch generalizing m with
    | nil => rfl
    | cons c l ih =>
        rw [List.map_cons, OrdMap.insertMany, List.foldl_cons, ← OrdMap.insertMany, ih,
          OrdMap.get?_insert, List.reverse_cons, List.find?_append]
        by_cases hid : id = c.id
        · cases l.reverse.find? fun c => c.id = id <;> simp [hid]
        · have hid' : ¬c.id = id := fun h => hid h.symm
          cases l.reverse.find? fun c => c.id = id <;> simp [hid, hid']
  exact (hfold ∅).trans (Option.or_none)

namespace Pushed

theorem get?_eq_some_iff (h : Pushed s batch t) :
    t.commits.get? id = some c ↔ s.commits.get? id = some c ∨ s.Enters batch c ∧ c.id = id := by
  rw [h.get?]
  cases hs : s.commits.get? id with
  | some d =>
      simp only [Option.some_or, Option.some.injEq]
      refine ⟨.inl, fun hc => hc.resolve_right ?_⟩
      rintro ⟨⟨hnone, -⟩, rfl⟩
      rw [hs] at hnone
      cases hnone
  | none =>
      simp only [Option.none_or, reduceCtorEq, false_or]
      constructor
      · intro hf
        have hid : c.id = id := by simpa using List.find?_some hf
        subst hid
        exact ⟨⟨hs, hf⟩, rfl⟩
      · rintro ⟨⟨-, hf⟩, rfl⟩
        exact hf

theorem filed (h : Pushed s batch t) (hs : Filed s.commits) : Filed t.commits := by
  intro id c hc
  rcases h.get?_eq_some_iff.1 hc with hc | ⟨-, hid⟩
  · exact hs id c hc
  · exact hid

/-- An accepted push keeps levels rising unless it is late. -/
theorem rises_iff (h : Pushed s batch t) (hs : Filed s.commits) (hr : Rises s.commits) :
    Rises t.commits ↔ ∀ q c, ¬s.Late batch q c := by
  constructor
  · intro ht q c hl
    have hq : t.commits.get? q.id = some q := h.get?_eq_some_iff.2 (.inr ⟨hl.enters, rfl⟩)
    have hc : t.commits.get? c.id = some c :=
      h.get?_eq_some_iff.2 (hl.child.imp id fun hc => ⟨hc.1, rfl⟩)
    have hlt := ht q.id c.id q c ((isParent_iff hc).2 hl.parent) hq hc
    have hle := hl.level
    omega
  · intro hlate p c q d hp hq hd
    have hqid : q.id = p := h.filed hs p q hq
    have hdid : d.id = c := h.filed hs c d hd
    have hmem : p ∈ d.parentIds := (isParent_iff hd).1 hp
    subst hqid hdid
    rcases h.get?_eq_some_iff.1 hd with hd' | ⟨hd', -⟩
    · rcases h.get?_eq_some_iff.1 hq with hq' | ⟨hq', -⟩
      · exact hr q.id d.id q d ((isParent_iff hd').2 hmem) hq' hd'
      · by_contra hle
        exact hlate q d ⟨hq', hmem, Nat.not_lt.1 hle, .inl hd'⟩
    · have habove := h.above d (List.mem_of_find?_eq_some hd'.2) q.id hmem
      rcases h.get?_eq_some_iff.1 hq with hq' | ⟨hq', -⟩
      · exact habove q.level (by simp [levelOf?, hq'])
      · by_contra hle
        obtain ⟨r, hr⟩ : ∃ r, (batch.reverse.find? fun d => d.id = q.id) = some r := by
          refine Option.isSome_iff_exists.1 (List.find?_isSome.2 ⟨q, ?_, by simp⟩)
          exact List.mem_reverse.2 (List.mem_of_find?_eq_some hq'.2)
        have hlt : r.level < d.level :=
          habove r.level (by simp [levelOf?, hq'.1, get?_batchLevels, hr])
        exact hlate q d ⟨hq', hmem, Nat.not_lt.1 hle, .inr ⟨hd', r, hr, hlt⟩⟩

end Pushed

/-! ## Runs -/

def after (rule : IdRule κ) (requests : List (Request κ)) (s : Store κ) : Store κ :=
  requests.foldl (fun s r => (s.answer rule r).2) s

def Timely (rule : IdRule κ) : List (Request κ) → Store κ → Prop
  | [], _ => True
  | r :: requests, s =>
    (∀ batch t, r = .push batch → s.push batch = (.ok (), t) → ∀ q c, ¬s.Late batch q c) ∧
      Timely rule requests (s.answer rule r).2

/-- Only a push that is accepted changes what is stored. -/
theorem commits_answer (rule : IdRule κ) (r : Request κ) (s : Store κ) :
    (s.answer rule r).2.commits = s.commits ∧
        (∀ batch t, r = .push batch → s.push batch ≠ (.ok (), t)) ∨
      ∃ batch t, r = .push batch ∧ Pushed s batch t ∧ (s.answer rule r).2 = t := by
  cases r with
  | push batch =>
      rcases hp : s.push batch with ⟨e | ⟨⟩, t⟩
      · refine .inl ⟨by rw [answer, hp, atomic_push s batch e t hp], ?_⟩
        rintro _ u ⟨⟩ hu
        rw [hp] at hu
        cases hu
      · exact .inr ⟨batch, t, rfl, push_eq_ok_iff.1 hp, by rw [answer, hp]⟩
  | updateHeads added removed =>
      refine .inl ⟨?_, fun _ _ h => by cases h⟩
      exact (atomic_updateHeads s added removed).snd (P := fun t => t.commits = s.commits) rfl
        fun t ht => (updateHeads_eq_ok ht).commits
  | saveSnapshot id diffs =>
      refine .inl ⟨?_, fun _ _ h => by cases h⟩
      simp only [answer, saveSnapshot]
      split <;> rfl
  | loadCommit id =>
      refine .inl ⟨?_, fun _ _ h => by cases h⟩
      simp only [answer]
      split <;> rfl
  | create | allHeads | activeHeads | loadSnapshot | countCommits =>
      exact .inl ⟨rfl, fun _ _ h => by cases h⟩

theorem history_extends_after (rule : IdRule κ) (requests : List (Request κ)) (s : Store κ) :
    History.Extends s.commits (after rule requests s).commits := by
  induction requests generalizing s with
  | nil => exact .refl _
  | cons r requests ih =>
      have hstep : Extends s.commits (s.answer rule r).2.commits := by
        rcases commits_answer rule r s with ⟨hc, -⟩ | ⟨batch, t, -, hp, ht⟩
        · rw [hc]
          exact .refl _
        · rw [ht]
          exact hp.history_extends
      exact hstep.trans (ih _)

theorem Responds.history_extends {rule : IdRule κ} {fails : Fault → Prop} {r : Request κ}
    {a : Except Fault r.Answer} (h : Responds rule fails r s a t) :
    History.Extends s.commits t.commits := by
  rcases h with h | ⟨e, -, -, rfl | ⟨batch, -, ht⟩⟩
  · have hafter := history_extends_after rule [r] s
    change History.Extends s.commits (s.answer rule r).2.commits at hafter
    rwa [h] at hafter
  · exact .refl _
  · exact (push_eq_ok_iff.1 ht).history_extends

theorem history_extends_of_runs {rule : IdRule κ} {fails : Fault → Prop} {allows : Store κ → Prop}
    {α : Type} {p : Program κ α} {o : Except Fault α}
    (h : p.Runs (environment rule fails allows) s o t) :
    History.Extends s.commits t.commits := by
  induction h with
  | done => exact .refl _
  | call answer _ ih => exact answer.1.history_extends.trans ih

theorem history_extends_run (rule : IdRule κ) {α : Type} (p : Program κ α) (s : Store κ) :
    History.Extends s.commits (p.run (repository rule) s).2.commits := by
  induction p generalizing s with
  | done o => exact .refl _
  | call r next ih => exact (history_extends_after rule [r] s).trans (ih _ _)

theorem rises_after_of (rule : IdRule κ) (requests : List (Request κ)) (hs : Filed s.commits)
    (hr : Rises s.commits) :
    Rises (after rule requests s).commits ↔ Timely rule requests s := by
  induction requests generalizing s with
  | nil => simpa [after, Timely] using hr
  | cons r requests ih =>
      change Rises (after rule requests (s.answer rule r).2).commits ↔ _
      rw [Timely]
      rcases commits_answer rule r s with ⟨hc, hnone⟩ | ⟨batch, t, rfl, hp, ht⟩
      · rw [ih (hc ▸ hs) (hc ▸ hr)]
        exact ⟨fun h => ⟨fun batch t hb hok => absurd hok (hnone batch t hb), h⟩, fun h => h.2⟩
      · rw [ht]
        constructor
        · intro h
          -- a commit that stands too high stays where it is
          have hrt : Rises t.commits := h.of_extends (history_extends_after rule requests t)
          refine ⟨?_, (ih (hp.filed hs) hrt).1 h⟩
          rintro _ _ ⟨⟩ -
          exact (hp.rises_iff hs hr).1 hrt
        · rintro ⟨hnone, htimely⟩
          have hrt : Rises t.commits :=
            (hp.rises_iff hs hr).2 (hnone batch t rfl (push_eq_ok_iff.2 hp))
          exact (ih (hp.filed hs) hrt).2 htimely

/-- Levels rise in a store exactly if no push of its past was late, and then it has no cycle. -/
theorem rises_after_iff (rule : IdRule κ) (requests : List (Request κ)) :
    (Rises (after rule requests empty).commits ↔ Timely rule requests empty) ∧
      (Timely rule requests empty →
        ∀ id, ¬ProperAncestor (after rule requests empty).commits id id) := by
  have hiff : Rises (after rule requests empty).commits ↔ Timely rule requests empty :=
    rises_after_of rule requests (by rintro id c ⟨⟩) (by rintro p c cp cc - ⟨⟩)
  exact ⟨hiff, fun ht => (hiff.2 ht).acyclic⟩

/-- A child that arrives before its parent, which then names it as a parent of its own. -/
def entangled : List (Request UInt64) :=
  [.push [⟨2, .single 1 [], 2, 0, none⟩], .push [⟨1, .single 2 [], 3, 0, none⟩]]

theorem not_rises_entangled :
    ¬Rises (after (.sequential 1) entangled empty).commits ∧
      ProperAncestor (after (.sequential 1) entangled empty).commits 1 1 := by
  have hparent : IsParent (after (.sequential 1) entangled empty).commits 1 2 :=
    ⟨⟨2, .single 1 [], 2, 0, none⟩, [], by decide, by decide⟩
  have hchild : IsParent (after (.sequential 1) entangled empty).commits 2 1 :=
    ⟨⟨1, .single 2 [], 3, 0, none⟩, [], by decide, by decide⟩
  have hcycle : ProperAncestor (after (.sequential 1) entangled empty).commits 1 1 :=
    .tail (.single hparent) hchild
  exact ⟨fun hr => hr.acyclic 1 hcycle, hcycle⟩

end Store

end Confluence
