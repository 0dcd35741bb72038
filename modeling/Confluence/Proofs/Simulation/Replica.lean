import Confluence.Proofs.Node.Basic
import Confluence.Simulation.Replica

/-!
# What replicas keep

A replica is consistent with a stage if it stands on an ancestor of the head, its edits lead from
the document of that commit to its own, a commit that is pending has one edge, from the same commit
to the same document, and all it has built is below the commit on which it stands or pending, and
listed once. Its own actions keep it consistent, whatever fails on the way, and so do the actions of
others.
-/

namespace Confluence.Replica

open History Program

variable {κ : Type} [CommitId κ]

def Owns (r : Replica κ) (c : Commit κ) : Prop := r.pending = some c

/-- What a replica knows of its pending commit, which may be stored already. -/
structure Awaits (w : Site κ) (x : Stage κ) (r : Replica κ) (c : Commit κ) : Prop where
  clean : r.working = []
  edge : ∃ edge, c.parents = .single r.cursor edge ∧
    Document.Leads (x.doc r.cursor) edge r.document
  level : c.level = r.level + 1
  given : w.rule.Gives 0 x.store.serial c
  same : ∀ d, x.history.get? c.id = some d → d = c

structure Consistent (w : Site κ) (x : Stage κ) (r : Replica κ) : Prop where
  cursor : ∃ c, x.history.get? r.cursor = some c ∧ c.level = r.level
  behind : x.history.Ancestor r.cursor x.head
  editing : r.pending = none → Document.Leads (x.doc r.cursor) r.working r.document
  awaiting : ∀ c, r.pending = some c → r.Awaits w x c
  authored : ∀ id ∈ r.authored,
    x.history.Ancestor id r.cursor ∨ ∃ c, r.pending = some c ∧ c.id = id
  once : r.authored.Nodup

structure Became (w : Site κ) (x : Stage κ) (r : Replica κ) (y : Stage κ) (r' : Replica κ) :
    Prop where
  id : r'.id = r.id
  consistent : r'.Consistent w y
  pending : ∀ c, r'.pending = some c →
    r.pending = some c ∨ w.rule.Gives x.store.serial y.store.serial c

/-- What is left of a replica by a call that fails is the replica. -/
def Keeps {α : Type} (r : Replica κ) (a : Except Fault α × Replica κ) : Prop :=
  ∀ e, a.1 = .error e → a.2 = r

/-- How a call ends: with a value and what is said of the replica then, or with a fault and the
replica as it was. -/
def Ends {α : Type} (fails : Fault → Prop) (r : Replica κ) (Q : α → Replica κ → Prop)
    (a : Except Fault α × Replica κ) : Prop :=
  (∃ v, a.1 = .ok v ∧ Q v a.2) ∨ ∃ e, a.1 = .error e ∧ fails e ∧ a.2 = r

variable {w : Site κ} {x y z : Stage κ} {r r' r'' : Replica κ} {own : Commit κ → Prop}
  {fails : Fault → Prop}

theorem Became.trans (h : r.Became w x y r') (hxy : Stage.Later w own x y)
    (k : r'.Became w y z r'') (hserial : y.store.serial ≤ z.store.serial) : r.Became w x z r'' where
  id := k.id.trans h.id
  consistent := k.consistent
  pending := by
    intro c hc
    rcases k.pending c hc with hc | hnew
    · rcases h.pending c hc with hc | hnew
      · exact .inl hc
      · exact .inr (hnew.mono (Nat.le_refl _) hserial)
    · exact .inr (hnew.mono hxy.serial (Nat.le_refl _))

theorem consistent_of_started {epoch : Nat} {t : Store κ} (ht : t.Started w.rule epoch w.root)
    (id : Nat) : Consistent w ⟨t, fun _ => ∅, w.root⟩ { id, cursor := w.root } where
  cursor := ⟨⟨w.root, ∅, 1, epoch, none⟩, by
    rw [Stage.history, ht.commits, OrdMap.get?_single, if_pos rfl], rfl⟩
  behind := .refl _
  editing := fun _ => .nil _
  awaiting := fun c hc => by cases hc
  authored := fun c hc => absurd hc List.not_mem_nil
  once := .nil

theorem consistent_advance {f : Fetched κ} (hpending : r.pending = none)
    (hworking : r.working = []) (hf : Site.Arrives r.document f y)
    (hauthored : ∀ id ∈ r.authored, y.history.Ancestor id y.head) (honce : r.authored.Nodup) :
    (r.advance f).Consistent w y := by
  rcases hf.level with ⟨c, hc, hlevel⟩
  have hcursor : (r.advance f).cursor = y.head := hf.commit
  constructor
  · rw [hcursor]
    exact ⟨c, hc, hlevel.symm⟩
  · rw [hcursor]
    exact .refl _
  · intro _
    have hdocument : (r.advance f).document = y.doc y.head := hf.leads.applyAll_eq
    have hworking' : (r.advance f).working = [] := hworking
    rw [hcursor, hdocument, hworking']
    exact .nil _
  · intro d hd
    cases hpending.symm.trans hd
  · rw [hcursor]
    exact fun id hid => .inl (hauthored id hid)
  · exact honce

/-! ## Calls that fail -/

section

variable {env : Environment κ (Store κ)} {s : Store κ}

theorem ensures_attemptCommit (henv : ∀ q s, env.permits q s) (r : Replica κ) :
    r.attemptCommit.Ensures env (fun a _ => r.Keeps a) (fun _ _ => False) s := by
  unfold attemptCommit
  split
  next => exact ensures_pure fun e he => by cases he
  next =>
    refine ensures_attempt_bind henv fun o t => ?_
    cases o with
    | error e => exact ensures_pure fun _ _ => rfl
    | ok c => exact ensures_pure fun e he => by cases he

theorem ensures_attemptPush (henv : ∀ q s, env.permits q s) (r : Replica κ) :
    r.attemptPush.Ensures env (fun a _ => r.Keeps a) (fun _ _ => False) s := by
  unfold attemptPush
  split
  next => exact ensures_pure fun e he => by cases he
  next c _ =>
    refine ensures_attempt_bind henv fun o t => ?_
    cases o with
    | error e => exact ensures_pure fun _ _ => rfl
    | ok f => exact ensures_pure fun e he => by cases he

theorem ensures_attemptFetch (henv : ∀ q s, env.permits q s) (r : Replica κ) :
    r.attemptFetch.Ensures env (fun a _ => r.Keeps a) (fun _ _ => False) s := by
  unfold attemptFetch
  split
  next => exact ensures_pure fun e he => by cases he
  next =>
    refine ensures_attempt_bind henv fun o t => ?_
    cases o with
    | error e => exact ensures_pure fun _ _ => rfl
    | ok f => exact ensures_pure fun e he => by cases he

end

namespace Consistent

theorem became_refl (hr : r.Consistent w x) : r.Became w x x r :=
  ⟨rfl, hr, fun _ hc => .inl hc⟩

theorem document_eq (hr : r.Consistent w x) (hpending : r.pending = none)
    (hworking : r.working = []) : r.document = x.doc r.cursor := by
  have hleads := hr.editing hpending
  rw [hworking] at hleads
  exact hleads.applyAll_eq.symm

/-- A replica stays consistent when another one acts whose commit is not taken for its own. -/
theorem later (hr : r.Consistent w x) (h : Stage.Later w own x y)
    (hown : ∀ c d, r.pending = some c → own d → c.id = d.id → c = d) :
    r.Consistent w y := by
  rcases hr.cursor with ⟨c, hc, hlevel⟩
  have hdoc : y.doc r.cursor = x.doc r.cursor := h.agrees _ c hc
  constructor
  · exact ⟨c, h.history _ c hc, hlevel⟩
  · exact (h.history.ancestor hr.behind).trans h.rises
  · intro hpending
    rw [hdoc]
    exact hr.editing hpending
  · intro c hc
    have ha := hr.awaiting c hc
    constructor
    · exact ha.clean
    · rw [hdoc]
      exact ha.edge
    · exact ha.level
    · exact ha.given.mono (Nat.le_refl _) h.serial
    · intro d hd
      have hid : c.id = d.id := (h.sound.filed hd).symm
      rcases h.added c.id d hd with hold | hpushed | hnew
      · exact ha.same d hold
      · exact (hown c d hc hpushed hid).symm
      · exact (w.separates ha.given (hnew.mono (Nat.le_refl _) h.limit) hid).symm
  · intro id hid
    rcases hr.authored id hid with ha | hc
    · exact .inl (h.history.ancestor ha)
    · exact .inr hc
  · exact hr.once

theorem became_later (hr : r.Consistent w x) (h : Stage.Later w r.Owns x y) :
    r.Became w x y r := by
  refine ⟨rfl, hr.later h ?_, fun c hc => .inl hc⟩
  intro c d hc hd _
  exact Option.some.inj (hc.symm.trans hd)

/-! ## Actions -/

theorem became_edit (hr : r.Consistent w x) {key : String} {value : Option String} {o : Operation}
    (h : r.edit key value = some (o, r')) : r.Became w x x r' := by
  simp only [Replica.edit] at h
  split at h
  next => cases h
  next hfree =>
    cases h
    have hpending : r.pending = none := by
      rw [Bool.or_eq_true_iff, not_or] at hfree
      simpa using hfree.1
    constructor
    · rfl
    · refine ⟨hr.cursor, hr.behind, ?_, ?_, hr.authored, hr.once⟩
      · intro _
        exact (hr.editing hpending).append (.edit r.document key value)
      · intro c hc
        cases hpending.symm.trans hc
    · exact fun c hc => .inl hc

/-- The ids of the commits below the replica's commit are not given again: a new commit lies above
all of these. -/
theorem not_mem_authored {c : Commit κ} (hr : r.Consistent w x) (hx : x.Valid w)
    (hpending : r.pending = none) (hlevel : c.level = r.level + 1)
    (hsame : ∀ d, x.history.get? c.id = some d → d = c) : c.id ∉ r.authored := by
  intro hid
  rcases hr.authored c.id hid with ha | ⟨d, hd, -⟩
  · rcases hr.cursor with ⟨q, hq, hqlevel⟩
    rcases hx.sound.ancestor_level ha hq with ⟨d, hd, hcd⟩
    cases hsame d hd
    rcases hcd with heq | hdq
    · rw [heq, hq] at hd
      cases hd
      omega
    · omega
  · cases hpending.symm.trans hd

/-- Edits become a pending commit above the replica's commit. -/
theorem became_commit {c : Commit κ} (hr : r.Consistent w x) (hx : x.Valid w)
    (hpending : r.pending = none) (hxy : Stage.Later w r.Owns x y)
    (hparents : c.parents = .single r.cursor r.working) (hlevel : c.level = r.level + 1)
    (hgiven : w.rule.Gives x.store.serial y.store.serial c) (hdoc : y.doc = x.doc)
    (hhistory : y.history = x.history) :
    r.Became w x y
      { r with working := [], pending := some c, authored := r.authored ++ [c.id] } := by
  have hr' : r.Consistent w y := hr.later hxy fun d _ hd => by cases hpending.symm.trans hd
  have hsame : ∀ d, x.history.get? c.id = some d → d = c := by
    intro d hd
    have hlast : w.rule.Gives x.store.serial w.limit c := hgiven.mono (Nat.le_refl _) hxy.limit
    exact w.separates (hx.given _ d hd) hlast (hx.sound.filed hd)
  refine ⟨rfl, ⟨hr'.cursor, hr'.behind, ?_, ?_, ?_, ?_⟩, ?_⟩
  · intro hnone
    cases hnone
  · intro d hd
    cases hd
    constructor
    · rfl
    · rw [hdoc]
      exact ⟨r.working, hparents, hr.editing hpending⟩
    · exact hlevel
    · exact hgiven.mono (Nat.zero_le _) (Nat.le_refl _)
    · rw [hhistory]
      exact hsame
  · intro id hid
    rcases List.mem_append.1 hid with hid | hid
    · rcases hr'.authored id hid with ha | ⟨d, hd, -⟩
      · exact .inl ha
      · cases hpending.symm.trans hd
    · rw [List.mem_singleton.1 hid]
      exact .inr ⟨c, rfl, rfl⟩
  · have hnew := hr.not_mem_authored hx hpending hlevel hsame
    exact List.nodup_append_comm.1 (List.nodup_cons.2 ⟨hnew, hr.once⟩)
  · intro d hd
    cases hd
    exact .inr hgiven

theorem does_attemptCommit (hr : r.Consistent w x) (hx : x.Valid w) :
    w.Does fails r.Owns x r.attemptCommit fun a y => r.Became w x y a.2 ∧
      r.Ends fails (fun id r' => r'.working = [] ∧ r'.authored = r.authored ++ id.toList) a := by
  unfold attemptCommit
  split
  next hidle =>
    apply Site.does_pure hx
    refine ⟨hr.became_refl, .inl ⟨none, rfl, ?_, (List.append_nil _).symm⟩⟩
    rcases Bool.or_eq_true_iff.1 hidle with hpending | hempty
    · rcases Option.isSome_iff_exists.1 hpending with ⟨c, hc⟩
      exact (hr.awaiting c hc).clean
    · exact List.isEmpty_iff.1 hempty
  next hbusy =>
    have hpending : r.pending = none := by
      rw [Bool.or_eq_true_iff, not_or] at hbusy
      simpa using hbusy.1
    rcases hr.cursor with ⟨q, hq, hlevel⟩
    have hlt : q.level < r.level + 1 := by omega
    apply (Site.does_createCommit hx hq hlt).attempt.next
    intro o y hxy ho
    rcases ho with ⟨c, rfl, hparents, hclevel, hgiven, -, hdoc, hhistory⟩ | ⟨e, rfl, he⟩
    · apply Site.does_pure hxy.toValid
      exact ⟨hr.became_commit hx hpending hxy hparents hclevel hgiven hdoc hhistory,
        .inl ⟨some c.id, rfl, rfl, rfl⟩⟩
    · exact Site.does_pure hxy.toValid ⟨hr.became_later hxy, .inr ⟨e, rfl, he, rfl⟩⟩

/-- A pending commit is pushed, and the replica moves on to the head. -/
theorem does_attemptPush (hr : r.Consistent w x) (hx : x.Valid w) :
    w.Does fails r.Owns x r.attemptPush fun a y => r.Became w x y a.2 ∧
      r.Ends fails (fun _ r' => r'.pending = none ∧ r'.working = r.working ∧
        r'.authored = r.authored) a := by
  unfold attemptPush
  split
  next hpending =>
    exact Site.does_pure hx ⟨hr.became_refl, .inl ⟨none, rfl, hpending, rfl, rfl⟩⟩
  next c hpending =>
    have ha := hr.awaiting c hpending
    rcases ha.edge with ⟨edge, hparents, hleads⟩
    rcases hr.cursor with ⟨q, hq, hlevel⟩
    have hlt : q.level < c.level := by
      rw [ha.level]
      omega
    have howns : ∀ d, d = c → r.Owns d := by
      intro d hd
      rw [hd]
      exact hpending
    have hpush : w.Does fails _ x (Node.push c) _ :=
      Site.does_push hx hparents hq hlt hleads.anchors ha.given ha.same
    apply (hpush.weaken hx howns).attempt.next
    intro o y hxy ho
    rcases ho with ⟨f, rfl, -, habove, harrives⟩ | ⟨e, rfl, he⟩
    · rw [hleads.applyAll_eq] at harrives
      apply Site.does_pure hxy.toValid
      have hauthored : ∀ id ∈ r.authored, y.history.Ancestor id y.head := by
        intro id hid
        rcases hr.authored id hid with hold | ⟨d, hd, rfl⟩
        · exact (hxy.history.ancestor (hold.trans hr.behind)).trans hxy.rises
        · cases hpending.symm.trans hd
          exact habove
      refine ⟨⟨rfl, ?_, ?_⟩, .inl ⟨some f, rfl, rfl, rfl, rfl⟩⟩
      · exact consistent_advance rfl ha.clean harrives hauthored hr.once
      · intro d hd
        cases hd
    · exact Site.does_pure hxy.toValid ⟨hr.became_later hxy, .inr ⟨e, rfl, he, rfl⟩⟩

/-- An idle replica moves on to the head. -/
theorem does_attemptFetch (hr : r.Consistent w x) (hx : x.Valid w) :
    w.Does fails r.Owns x r.attemptFetch fun a y => r.Became w x y a.2 ∧
      r.Ends fails (fun _ r' => y = x ∧ r'.authored = r.authored ∧
        (r.pending = none → r.working = [] → r'.pending = none ∧ r'.working = [] ∧
          r'.cursor = x.head)) a := by
  unfold attemptFetch
  split
  next hbusy =>
    refine Site.does_pure hx ⟨hr.became_refl, .inl ⟨none, rfl, rfl, rfl, ?_⟩⟩
    intro hpending hworking
    simp [hpending, hworking] at hbusy
  next hidle =>
    have hidle : r.pending = none ∧ r.working = [] := by
      simpa using hidle
    rcases hidle with ⟨hpending, hworking⟩
    apply (Site.does_fetch hx hr.behind).attempt.next
    intro o y hxy ho
    rcases ho with ⟨f, rfl, harrives, rfl⟩ | ⟨e, rfl, he⟩
    · rw [← hr.document_eq hpending hworking] at harrives
      apply Site.does_pure hx
      have hauthored : ∀ id ∈ r.authored, y.history.Ancestor id y.head := by
        intro id hid
        rcases hr.authored id hid with ha | ⟨c, hc, -⟩
        · exact ha.trans hr.behind
        · cases hpending.symm.trans hc
      refine ⟨⟨rfl, ?_, fun c hc => .inl hc⟩, .inl ⟨some f, rfl, rfl, rfl, ?_⟩⟩
      · exact consistent_advance hpending hworking harrives hauthored hr.once
      · intro _ _
        exact ⟨hpending, hworking, harrives.commit⟩
    · exact Site.does_pure hxy.toValid ⟨hr.became_later hxy, .inr ⟨e, rfl, he, rfl⟩⟩

theorem does_fetch (hr : r.Consistent w x) (hx : x.Valid w) :
    w.Does fails r.Owns x r.fetch fun a y => y = x ∧ r.Became w x x a.2 ∧
      (r.pending = none → r.working = [] → a.2.pending = none ∧ a.2.working = [] ∧
        a.2.cursor = x.head) := by
  apply (hr.does_attemptFetch hx).next
  intro a y hxy ha
  rcases a with ⟨o, r'⟩
  rcases ha with ⟨hr', ⟨f, rfl, rfl, -, hidle⟩ | ⟨e, rfl, he, rfl⟩⟩
  · exact Site.does_pure hxy.toValid ⟨rfl, hr', hidle⟩
  · exact Site.does_fail hxy.toValid he

/-- A replica brings in all its work unless something fails. -/
theorem does_flush (hr : r.Consistent w x) (hx : x.Valid w) :
    w.Does fails r.Owns x r.flush fun a y => r.Became w x y a.2 ∧
      (a.1 = .ok () ∧ a.2.pending = none ∧ a.2.working = [] ∨ ∃ e, a.1 = .error e ∧ fails e) := by
  apply (hr.does_attemptCommit hx).bind
  intro a y hxy ha
  rcases a with ⟨o, r₁⟩
  rcases ha with ⟨h₁, ho⟩
  refine ⟨r₁.Owns, h₁.pending, ?_⟩
  rcases ho with ⟨id, rfl, hworking, -⟩ | ⟨e, rfl, he, -⟩
  · apply (h₁.consistent.does_attemptPush hxy.toValid).bind
    intro b z hyz hb
    rcases b with ⟨o, r₂⟩
    rcases hb with ⟨h₂, ho⟩
    have h := h₁.trans hxy h₂ hyz.serial
    have hxz := hxy.trans hyz h₁.pending
    refine ⟨r₂.Owns, h₂.pending, ?_⟩
    rcases ho with ⟨f, rfl, hpending₂, hworking₂, -⟩ | ⟨e, rfl, he, -⟩
    · apply (h₂.consistent.does_attemptFetch hyz.toValid).next
      intro c u hzu hc
      rcases c with ⟨o, r₃⟩
      rcases hc with ⟨h₃, ⟨f, rfl, -, -, hidle⟩ | ⟨e, rfl, he, -⟩⟩
      · rcases hidle hpending₂ (hworking₂.trans hworking) with ⟨hpending₃, hworking₃, -⟩
        exact Site.does_pure hzu.toValid
          ⟨h.trans hxz h₃ hzu.serial, .inl ⟨rfl, hpending₃, hworking₃⟩⟩
      · exact Site.does_pure hzu.toValid ⟨h.trans hxz h₃ hzu.serial, .inr ⟨e, rfl, he⟩⟩
    · exact Site.does_pure hyz.toValid ⟨h, .inr ⟨e, rfl, he⟩⟩
  · exact Site.does_pure hxy.toValid ⟨h₁, .inr ⟨e, rfl, he⟩⟩

end Consistent

end Confluence.Replica
