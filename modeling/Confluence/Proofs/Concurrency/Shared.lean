import Confluence.Proofs.Concurrency.Guard
import Confluence.Proofs.Concurrency.Session
import Confluence.Proofs.Repository.Plans
import Confluence.Proofs.Repository.Snapshots

/-!
# What readers and writers leave each other

A store is tended as long as its documents can be rebuilt, all its commits are of one epoch, and the
root has a snapshot and stays covered. A job relies on a tended store that loses nothing: stored
commits stay, and what is below a head stays below one. In return it pushes only single commits that
fit, whose edges lead to one document from what their stored parents are replayed to, and takes a
head away only for one above it. `environment` joins the two sides.
-/

namespace Confluence

open History Program

variable {κ : Type} [CommitId κ]

namespace Store

/-- A store whose history has grown from a root by edits and merges. -/
structure Tended (root : κ) (epoch : Nat) (s : Store κ) : Prop where
  documents : ∃ doc, s.Rebuilds doc
  epochs : ∀ id c, s.commits.get? id = some c → c.epoch = epoch
  covers : s.Covers root
  snapshot : ∃ l, s.snapshots.get? root = some l

/-- The second store has come from the first one, and nothing is lost. -/
structure Onward (root : κ) (epoch : Nat) (s t : Store κ) : Prop where
  history : Extends s.commits t.commits
  snapshots : t.snapshots = s.snapshots
  covers : ∀ x, s.Covers x → t.Covers x
  tended : t.Tended root epoch

/-- A commit that may be stored: it continues stored commits of the epoch, and its edges lead to one
document. -/
structure Fits (epoch : Nat) (s : Store κ) (c : Commit κ) : Prop where
  epoch : c.epoch = epoch
  continues : c.parents ≠ ∅
  parents : ∀ p ∈ c.parentIds, ∃ q, s.commits.get? p = some q ∧ q.level < c.level
  leads : ∃ d, ∀ p edge, c.parents.get? p = some edge →
    ∃ e, Replays s.commits p e ∧ Document.Leads e edge d

variable {root : κ} {epoch : Nat} {s t u : Store κ} {c : Commit κ} {x : κ}

/-! ## Tended stores -/

namespace Tended

theorem onward (hs : s.Tended root epoch) : s.Onward root epoch s :=
  ⟨.refl _, rfl, fun _ hx => hx, hs⟩

theorem ready (hs : s.Tended root epoch) : s.Ready := by
  obtain ⟨doc, hdoc⟩ := hs.documents
  exact ⟨hdoc.toGraded, hdoc.heads⟩

theorem heads (hs : s.Tended root epoch) : ∀ x ∈ s.heads, ∃ c, s.commits.get? x = some c :=
  hs.ready.heads

theorem activeHeads (hs : s.Tended root epoch) : s.activeHeads = s.heads := by
  have hepoch : ∀ x ∈ s.heads, ∃ c, s.commits.get? x = some c ∧ c.epoch = epoch := by
    intro x hx
    obtain ⟨c, hc⟩ := hs.heads x hx
    exact ⟨c, hc, hs.epochs x c hc⟩
  exact activeHeads_of_epoch hepoch

theorem exists_head (hs : s.Tended root epoch) : ∃ x, x ∈ s.heads := by
  obtain ⟨x, hx, -⟩ := hs.covers
  exact ⟨x, hx⟩

theorem stored_of_covers (hs : s.Tended root epoch) (hx : s.Covers x) :
    ∃ c, s.commits.get? x = some c := by
  obtain ⟨y, hy, hxy⟩ := hx
  obtain ⟨c, hc⟩ := hs.heads y hy
  exact hs.ready.graded.exists_of_ancestor hxy hc

theorem exists_replays (hs : s.Tended root epoch) (hc : s.commits.get? x = some c) :
    ∃! d, Replays s.commits x d := by
  obtain ⟨doc, hdoc⟩ := hs.documents
  exact ⟨doc x, hdoc.replays hc, fun d hd => hdoc.eq_of_replays hd⟩

theorem congr (hs : s.Tended root epoch) (hcommits : t.commits = s.commits)
    (hsnapshots : t.snapshots = s.snapshots)
    (hheads : ∀ x ∈ t.heads, ∃ c, s.commits.get? x = some c) (hcovers : t.Covers root) :
    t.Tended root epoch := by
  obtain ⟨⟨doc, hsound, hblank, hsnapshot, -⟩, hepochs, -, hroot⟩ := hs
  rw [← hcommits] at hsound hblank hsnapshot hepochs hheads
  rw [← hsnapshots] at hsnapshot hroot
  exact ⟨⟨doc, hsound, hblank, hsnapshot, hheads⟩, hepochs, hcovers, hroot⟩

end Tended

namespace Onward

theorem rely (h : s.Onward root epoch t) : s.Rely t := ⟨h.history, h.tended.ready, h.snapshots⟩

theorem trans (hst : s.Onward root epoch t) (htu : t.Onward root epoch u) :
    s.Onward root epoch u where
  history := hst.history.trans htu.history
  snapshots := htu.snapshots.trans hst.snapshots
  covers := fun x hx => htu.covers x (hst.covers x hx)
  tended := htu.tended

end Onward

theorem onward_of_covers (hs : s.Tended root epoch) (hcommits : t.commits = s.commits)
    (hsnapshots : t.snapshots = s.snapshots)
    (hheads : ∀ x ∈ t.heads, ∃ c, s.commits.get? x = some c)
    (hcovers : ∀ x, s.Covers x → t.Covers x) : s.Onward root epoch t where
  history := hcommits ▸ .refl _
  snapshots := hsnapshots
  covers := hcovers
  tended := hs.congr hcommits hsnapshots hheads (hcovers root hs.covers)

theorem onward_of_eq (hs : s.Tended root epoch) (hcommits : t.commits = s.commits)
    (hheads : t.heads = s.heads) (hsnapshots : t.snapshots = s.snapshots) :
    s.Onward root epoch t := by
  refine onward_of_covers hs hcommits hsnapshots (hheads ▸ hs.heads) fun x hx => ?_
  unfold Covers
  rw [hcommits, hheads]
  exact hx

/-! ## Pushing -/

theorem Fits.grow (h : s.Fits epoch c) (he : Extends s.commits t.commits) : t.Fits epoch c where
  epoch := h.epoch
  continues := h.continues
  parents := by
    intro p hp
    obtain ⟨q, hq, hlt⟩ := h.parents p hp
    exact ⟨q, he p q hq, hlt⟩
  leads := by
    obtain ⟨d, hd⟩ := h.leads
    refine ⟨d, fun p edge hedge => ?_⟩
    obtain ⟨e, he', hl⟩ := hd p edge hedge
    exact ⟨e, he'.grow he, hl⟩

/-- A new commit is given the document to which its edges lead. -/
theorem Rebuilds.insert {doc : κ → Document} {d : Document} (hs : s.Rebuilds doc)
    (hp : s.Pushed [c] t) (hnew : s.commits.get? c.id = none) (hcontinues : c.parents ≠ ∅)
    (hedges : ∀ p edge, c.parents.get? p = some edge →
      (∃ q, s.commits.get? p = some q ∧ q.level < c.level) ∧ Document.Leads (doc p) edge d) :
    t.Rebuilds (Function.update doc c.id d) := by
  have hcommits := hp.commits_eq_insert hnew
  have hne {id : κ} {b : Commit κ} (hb : s.commits.get? id = some b) : id ≠ c.id := by
    rintro rfl
    rw [hnew] at hb
    cases hb
  have hsound : Sound t.commits (Function.update doc c.id d) := by
    rw [hcommits]
    exact hs.toSound.insert hnew hedges
  refine { hsound with blank := ?_, snapshots := ?_, heads := ?_ }
  · intro id b hb hroot
    rw [hcommits, OrdMap.get?_insert] at hb
    split at hb
    next =>
      cases hb
      exact absurd hroot hcontinues
    next hid =>
      rw [Function.update_of_ne hid]
      exact hs.blank hb hroot
  · intro id l hl
    rw [hp.snapshots] at hl
    obtain ⟨⟨b, hb⟩, hlead⟩ := hs.snapshots hl
    rw [Function.update_of_ne (hne hb)]
    exact ⟨⟨b, hp.history_extends id b hb⟩, hlead⟩
  · intro x hx
    obtain ⟨b, hb⟩ := hs.heads x (hp.heads ▸ hx)
    exact ⟨b, hp.history_extends x b hb⟩

theorem covers_of_pushed {batch : List (Commit κ)} (hp : s.Pushed batch t) (hx : s.Covers x) :
    t.Covers x := by
  obtain ⟨y, hy, hxy⟩ := hx
  exact ⟨y, hp.heads ▸ hy, hp.history_extends.ancestor hxy⟩

theorem Tended.insert (hs : s.Tended root epoch) (hc : s.Fits epoch c) (hp : s.Pushed [c] t)
    (hnew : s.commits.get? c.id = none) : t.Tended root epoch := by
  obtain ⟨doc, hdoc⟩ := hs.documents
  obtain ⟨d, hd⟩ := hc.leads
  have hrebuilds : t.Rebuilds (Function.update doc c.id d) := by
    refine hdoc.insert hp hnew hc.continues fun p edge hedge => ⟨?_, ?_⟩
    · exact hc.parents p (OrdMap.mem_keys.2 ⟨edge, hedge⟩)
    · obtain ⟨e, he, hlead⟩ := hd p edge hedge
      rwa [← hdoc.eq_of_replays he]
  refine ⟨⟨_, hrebuilds⟩, fun id b hb => ?_, covers_of_pushed hp hs.covers, ?_⟩
  · rw [hp.commits_eq_insert hnew, OrdMap.get?_insert] at hb
    split at hb
    next =>
      cases hb
      exact hc.epoch
    next => exact hs.epochs id b hb
  · rw [hp.snapshots]
    exact hs.snapshot

theorem onward_of_pushed (hs : s.Tended root epoch) (hc : s.Fits epoch c) (hp : s.Pushed [c] t) :
    s.Onward root epoch t := by
  cases hold : s.commits.get? c.id with
  | none =>
      exact ⟨hp.history_extends, hp.snapshots, fun x => covers_of_pushed hp, hs.insert hc hp hold⟩
  | some b => exact onward_of_eq hs (hp.commits_eq_self hold) hp.heads hp.snapshots

theorem onward_of_moved (hs : s.Tended root epoch) {added removed : OrdSet κ}
    (habove : ∀ x ∈ removed, ∃ y ∈ added, Ancestor s.commits x y)
    (hm : s.HeadsMoved added removed t) : s.Onward root epoch t := by
  refine onward_of_covers hs hm.commits hm.snapshots (fun x hx => ?_) ?_
  · rcases (hm.heads x).1 hx with hx | ⟨hx, -⟩
    · exact hm.stored x hx
    · exact hs.heads x hx
  · rintro x ⟨y, hy, hxy⟩
    unfold Covers
    rw [hm.commits]
    by_cases hr : y ∈ removed
    · obtain ⟨z, hz, hyz⟩ := habove y hr
      exact ⟨z, (hm.heads z).2 (.inl hz), hxy.trans hyz⟩
    · exact ⟨y, (hm.heads y).2 (.inr ⟨hy, hr⟩), hxy⟩

end Store

namespace Shared

open Store

variable {α β : Type} {rule : IdRule κ} {root : κ} {epoch : Nat} {s t u : Store κ} {h : OrdSet κ}

/-! ## Rely and guarantee -/

def Permits (epoch : Nat) : Request κ → Store κ → Prop
  | .push commits, s => ∃ c, commits = [c] ∧ s.Fits epoch c
  | .updateHeads added removed, s => ∀ x ∈ removed, ∃ y ∈ added, Ancestor s.commits x y
  | .saveSnapshot .., _ => False
  | _, _ => True

def environment (rule : IdRule κ) (root : κ) (epoch : Nat) :
    Environment κ (Store κ × OrdSet κ) where
  permits r st := Permits epoch r st.1
  responds r st a st' :=
    ∃ u, st.1.Onward root epoch u ∧ u.answer rule r = (a, st'.1) ∧ st'.2 = r.read u st.2

theorem Permits.onward {r : Request κ} (hp : Permits epoch r s) (hst : s.Onward root epoch t) :
    Permits epoch r t := by
  cases r with
  | push commits =>
      obtain ⟨c, hcommits, hc⟩ := hp
      exact ⟨c, hcommits, hc.grow hst.history⟩
  | updateHeads added removed =>
      intro x hx
      obtain ⟨y, hy, hxy⟩ := hp x hx
      exact ⟨y, hy, hst.history.ancestor hxy⟩
  | saveSnapshot => exact hp.elim
  | create | allHeads | activeHeads | loadCommit | loadSnapshot | countCommits => trivial

/-- A permitted request loses nothing, however it is answered. -/
theorem onward_of_answer (rule : IdRule κ) {r : Request κ} (hs : s.Tended root epoch)
    (hp : Permits epoch r s) : s.Onward root epoch (s.answer rule r).2 := by
  cases r with
  | push commits =>
      obtain ⟨c, rfl, hc⟩ := hp
      exact (atomic_push s [c]).snd hs.onward fun t ht =>
        onward_of_pushed hs hc (push_eq_ok_iff.1 ht)
  | updateHeads added removed =>
      exact (atomic_updateHeads s added removed).snd hs.onward fun t ht =>
        onward_of_moved hs hp (updateHeads_eq_ok ht)
  | saveSnapshot => exact hp.elim
  | create => exact onward_of_eq hs rfl rfl rfl
  | loadCommit id =>
      simp only [answer]
      split <;> exact hs.onward
  | allHeads | activeHeads | loadSnapshot | countCommits => exact hs.onward

/-- What others do does not take anything from what a call has come to, if that lasts while nothing
is lost. -/
theorem ensures_onward {p : Program κ α} {P : α → Store κ × OrdSet κ → Prop}
    {E : Fault → Store κ × OrdSet κ → Prop} (hst : s.Onward root epoch t)
    (hP : ∀ a, P a (s, h) → P a (t, h)) (hE : ∀ e, E e (s, h) → E e (t, h))
    (hp : p.Ensures (environment rule root epoch) P E (s, h)) :
    p.Ensures (environment rule root epoch) P E (t, h) := by
  cases p with
  | done o =>
      cases o with
      | ok a => exact hP a hp
      | error e => exact hE e hp
  | call r next =>
      refine ⟨Permits.onward hp.1 hst, fun a st ⟨u, hu, ha⟩ => ?_⟩
      exact hp.2 a st ⟨u, hst.trans hu, ha⟩

/-! ## Composing calls -/

theorem environment_serves (s : Store κ) (h : OrdSet κ) :
    (environment rule root epoch).Serves (s.view fun _ => False)
      fun st => s.Onward root epoch st.1 ∧ st.2 = h := by
  constructor
  · rintro r st - hr
    rcases View.permits_iff.1 hr with ⟨id, c, rfl, -⟩ | ⟨id, rfl⟩ | rfl <;> trivial
  · rintro r st a st' ⟨hs, rfl⟩ hr ⟨u, hu, ha, hread⟩
    have hsu := hs.trans hu
    obtain ⟨hans, hst⟩ := hsu.rely.answers hr (.inl ha)
    refine ⟨hans, hst ▸ hsu, hread.trans ?_⟩
    rcases View.permits_iff.1 hr with ⟨id, c, rfl, -⟩ | ⟨id, rfl⟩ | rfl <;> rfl

section

variable {Q : β → Store κ × OrdSet κ → Prop} {E : Fault → Store κ × OrdSet κ → Prop}

theorem ensures_bind_reads {p : Program κ α} {f : α → Program κ β} {P : α → Prop}
    {F : Fault → Prop} (hs : s.Tended root epoch) (hp : p.Reads (s.view fun _ => False) P F)
    (hF : ∀ e t, F e → E e (t, h))
    (hf : ∀ a t, P a → s.Onward root epoch t →
      (f a).Ensures (environment rule root epoch) Q E (t, h)) :
    (p >>= f).Ensures (environment rule root epoch) Q E (s, h) := by
  apply Ensures.bind
  refine (hp.ensures (environment_serves s h) ⟨hs.onward, rfl⟩).mono ?_ ?_
  · rintro a ⟨t, h'⟩ ⟨ha, ht, rfl⟩
    exact hf a t ha ht
  · rintro e ⟨t, h'⟩ ⟨he, -, rfl⟩
    exact hF e t he

theorem ensures_bind_ask {r : Request κ} {f : r.Answer → Program κ β} (hr : Permits epoch r s)
    (hE : ∀ u t e, u.answer rule r = (.error e, t) → E e (t, r.read u h))
    (hf : ∀ u t a, s.Onward root epoch u → u.Onward root epoch t → u.answer rule r = (.ok a, t) →
      (f a).Ensures (environment rule root epoch) Q E (t, r.read u h)) :
    (ask r >>= f).Ensures (environment rule root epoch) Q E (s, h) := by
  apply Ensures.bind
  refine ensures_ask hr ?_ ?_
  · rintro a ⟨t, h'⟩ ⟨u, hu, ha, rfl⟩
    have ht := onward_of_answer rule hu.tended (hr.onward hu)
    rw [ha] at ht
    exact hf u t a hu ht ha
  · rintro e ⟨t, h'⟩ ⟨u, -, ha, rfl⟩
    exact hE u t e ha

end

end Shared

end Confluence
