import Confluence.Proofs.Repository.Heads

/-!
# Watchers do not miss a change

Watchers wait at a store while others change its heads. A waiter remembers what its watcher has
found last and, for the sake of the proof, what the active heads have been after every request
since. The version of the last announcement that a watcher has seen is the latest one exactly as
long as the active heads have stayed what it found: a change raises the version, and nothing else
does. So a look that finds nothing shows that nothing has changed, not even for a while.
-/

namespace Confluence

variable {κ : Type} [CommitId κ]

structure Waiter (κ : Type) [CommitId κ] where
  watcher : Watcher := {}
  found : Option (OrdSet κ) := none
  /-- The active heads after each request since. -/
  since : List (OrdSet κ) := []
deriving DecidableEq

structure Watch (κ : Type) [CommitId κ] where
  store : Store κ
  waiters : List (Waiter κ) := []

def Waiter.note (heads : OrdSet κ) (x : Waiter κ) : Waiter κ :=
  { x with since := x.since ++ [heads] }

namespace Watch

def request (rule : IdRule κ) (r : Request κ) (w : Watch κ) : Watch κ :=
  let t := (w.store.answer rule r).2
  ⟨t, w.waiters.map (Waiter.note t.activeHeads)⟩

def opened (w : Watch κ) : Watch κ := { w with waiters := w.waiters ++ [{}] }

/-- One step: a request is answered, a watcher is opened, or a watcher looks and finds something. A
watcher that finds nothing goes on waiting. -/
inductive Step (rule : IdRule κ) : Watch κ → Watch κ → Prop where
  | request (r : Request κ) (w : Watch κ) : Step rule w (w.request rule r)
  | opened (w : Watch κ) : Step rule w w.opened
  | look {w : Watch κ} {i : Nat} {x : Waiter κ} {heads : OrdSet κ} {watcher : Watcher}
      {t : Store κ} (hi : w.waiters[i]? = some x)
      (h : (Store.repository rule).look x.watcher w.store = some (.ok heads, watcher, t)) :
      Step rule w ⟨t, w.waiters.set i ⟨watcher, some heads, []⟩⟩

def Steps (rule : IdRule κ) : Watch κ → Watch κ → Prop := Relation.ReflTransGen (Step rule)

end Watch

namespace Store

variable {rule : IdRule κ} {s t : Store κ}

/-! ## Announcements -/

theorem announcement_announce_cases (s : Store κ) : s.announce.announcement = s.announcement ∨
    s.announce.announcement.version = s.announcement.version + 1 ∧
      s.announce.announcement.heads ≠ s.announcement.heads := by
  unfold announce
  split
  next => exact .inl rfl
  next hne => exact .inr ⟨rfl, hne⟩

theorem announcement_answer_cases {r : Request κ} {a : Except Fault r.Answer}
    (h : s.answer rule r = (a, t)) : t.announcement = s.announcement ∨
      t.announcement.version = s.announcement.version + 1 ∧
        t.announcement.heads ≠ s.announcement.heads := by
  cases r with
  | push batch =>
      cases a with
      | error e => exact .inl (by rw [eq_of_answer_error h])
      | ok v => exact .inl (by rw [(push_eq_ok_iff.1 h).eq])
  | updateHeads added removed =>
      cases a with
      | error e => exact .inl (by rw [eq_of_answer_error h])
      | ok v =>
          simp only [answer, updateHeads] at h
          split at h
          next => cases h
          next =>
            cases h
            exact announcement_announce_cases _
  | saveSnapshot id diffs =>
      cases a with
      | error e => exact .inl (by rw [eq_of_answer_error h])
      | ok v =>
          simp only [answer, saveSnapshot] at h
          split at h
          next =>
            cases h
            exact .inl rfl
          next => cases h
  | loadCommit id =>
      simp only [answer] at h
      split at h <;> cases h <;> exact .inl rfl
  | create | allHeads | activeHeads | loadSnapshot | countCommits =>
      cases h
      exact .inl rfl

/-- The version is raised exactly if the active heads change. -/
theorem Orderly.version_answer_cases (hs : s.Orderly) {r : Request κ} {a : Except Fault r.Answer}
    (h : s.answer rule r = (a, t)) :
    (t.announcement.version = s.announcement.version ∧ t.activeHeads = s.activeHeads) ∨
      (t.announcement.version = s.announcement.version + 1 ∧ t.activeHeads ≠ s.activeHeads) := by
  have ht : t.Orderly := by
    have hanswer := hs.answer rule r
    rw [h] at hanswer
    exact hanswer
  rw [← hs.announced, ← ht.announced]
  rcases announcement_answer_cases h with heq | hnext
  · exact .inl (by rw [heq]; exact ⟨rfl, rfl⟩)
  · exact .inr hnext

theorem look_eq (rule : IdRule κ) (w : Watcher) (s : Store κ) : (repository rule).look w s =
    if w.seen = some s.announcement.version then none
    else some (.ok s.announcement.heads, ⟨some s.announcement.version⟩, s) := rfl

end Store

/-! ## Waiters -/

namespace Waiter

variable {rule : IdRule κ} {s t : Store κ} {x : Waiter κ}

/-- Nothing has changed since a waiter's watcher has found some heads. -/
def Steady (x : Waiter κ) : Prop := ∃ heads, x.found = some heads ∧ ∀ g ∈ x.since, g = heads

/-- What is kept of a waiter: it is steady exactly if it has seen the latest version, and then it
has found what is active. -/
structure Kept (s : Store κ) (x : Waiter κ) : Prop where
  seen_le : ∀ v, x.watcher.seen = some v → v ≤ s.announcement.version
  steady_iff : x.Steady ↔ x.watcher.seen = some s.announcement.version
  current : x.watcher.seen = some s.announcement.version → x.found = some s.activeHeads

theorem kept_new (s : Store κ) : Kept s {} where
  seen_le := by
    intro v hv
    cases hv
  steady_iff := by
    constructor
    · intro h
      rcases h with ⟨heads, hfound, -⟩
      cases hfound
    · intro h
      cases h
  current := by
    intro h
    cases h

theorem kept_found (s : Store κ) :
    Kept s ⟨⟨some s.announcement.version⟩, some s.activeHeads, []⟩ where
  seen_le := by
    intro v hv
    cases hv
    exact Nat.le_refl _
  steady_iff := by
    constructor
    · intro _
      rfl
    · intro _
      exact ⟨s.activeHeads, rfl, fun g hg => absurd hg List.not_mem_nil⟩
  current := fun _ => rfl

theorem steady_note {heads : OrdSet κ} :
    (x.note heads).Steady ↔ x.Steady ∧ x.found = some heads := by
  unfold Steady note
  constructor
  · intro h
    rcases h with ⟨g, hfound, hsince⟩
    obtain rfl : heads = g := hsince heads (List.mem_append_right _ List.mem_cons_self)
    exact ⟨⟨heads, hfound, fun g hg => hsince g (List.mem_append_left _ hg)⟩, hfound⟩
  · intro h
    rcases h with ⟨⟨g, hfound, hsince⟩, hheads⟩
    obtain rfl : g = heads := Option.some.inj (hfound.symm.trans hheads)
    refine ⟨g, hfound, fun f hf => ?_⟩
    rcases List.mem_append.1 hf with hf | hf
    · exact hsince f hf
    · exact List.mem_singleton.1 hf

/-- A request leaves both the version and the active heads alone, or changes both. -/
theorem Kept.request (hs : s.Orderly) (hx : x.Kept s) {r : Request κ} {a : Except Fault r.Answer}
    (h : s.answer rule r = (a, t)) : (x.note t.activeHeads).Kept t := by
  rcases hs.version_answer_cases h with ⟨hversion, hactive⟩ | ⟨hversion, hactive⟩
  -- a waiter that was steady has found what is active, so it is steady still
  · constructor
    · intro v hv
      rw [hversion]
      exact hx.seen_le v hv
    · rw [steady_note, hx.steady_iff, hversion, hactive]
      exact and_iff_left_of_imp hx.current
    · intro hv
      rw [hactive]
      exact hx.current (hversion ▸ hv)
  -- a new version has been seen by no waiter yet, and other heads leave none steady
  · have hbehind : x.watcher.seen ≠ some t.announcement.version := by
      intro hv
      have hle := hx.seen_le _ hv
      omega
    constructor
    · intro v hv
      rw [hversion]
      exact Nat.le_succ_of_le (hx.seen_le v hv)
    · refine iff_of_false ?_ hbehind
      rw [steady_note, hx.steady_iff]
      intro hsteady
      have hfound := (hx.current hsteady.1).symm.trans hsteady.2
      exact hactive (Option.some.inj hfound).symm
    · intro hv
      exact absurd hv hbehind

/-- What a waiter can rely on: a look that finds something gives the active heads and changes
nothing, the first look finds something, and a later one finds nothing exactly if the active heads
have been what the waiter found all the time since. -/
structure Attentive (rule : IdRule κ) (s : Store κ) (x : Waiter κ) : Prop where
  resolves : ∀ found watcher t,
    (Store.repository rule).look x.watcher s = some (found, watcher, t) →
      (found, t) = s.answer rule .activeHeads ∧ found = .ok s.activeHeads
  first : x.found = none → (Store.repository rule).look x.watcher s ≠ none
  pending : (Store.repository rule).look x.watcher s = none ↔ x.Steady
  current : (Store.repository rule).look x.watcher s = none → x.found = some s.activeHeads

theorem Kept.attentive (hs : s.Orderly) (hx : x.Kept s) (rule : IdRule κ) : x.Attentive rule s := by
  have hlook : (Store.repository rule).look x.watcher s = none ↔
      x.watcher.seen = some s.announcement.version := by
    rw [Store.look_eq]
    split <;> simp [*]
  constructor
  · intro found watcher t h
    have hlooked := (hs.agrees rule).looked _ _ _ _ h
    rw [hlooked.1, hlooked.2]
    exact ⟨rfl, rfl⟩
  · intro hnone hlooked
    rw [hx.current (hlook.1 hlooked)] at hnone
    cases hnone
  · rw [hlook, hx.steady_iff]
  · intro hlooked
    exact hx.current (hlook.1 hlooked)

end Waiter

/-! ## All steps -/

namespace Watch

variable {rule : IdRule κ} {w v : Watch κ}

structure Kept (w : Watch κ) : Prop where
  orderly : w.store.Orderly
  waiters : ∀ x ∈ w.waiters, x.Kept w.store

theorem Kept.step (hw : w.Kept) (h : Step rule w v) : v.Kept := by
  cases h with
  | request r =>
      refine ⟨hw.orderly.answer rule r, fun y hy => ?_⟩
      rcases List.mem_map.1 hy with ⟨x, hx, rfl⟩
      exact (hw.waiters x hx).request hw.orderly rfl
  | opened =>
      refine ⟨hw.orderly, fun x hx => ?_⟩
      rcases List.mem_append.1 hx with hx | hx
      · exact hw.waiters x hx
      · rw [List.mem_singleton.1 hx]
        exact Waiter.kept_new w.store
  | look hi hlook =>
      rw [Store.look_eq] at hlook
      split at hlook
      next => cases hlook
      next =>
        cases hlook
        refine ⟨hw.orderly, fun y hy => ?_⟩
        rcases List.mem_or_eq_of_mem_set hy with hy | rfl
        · exact hw.waiters y hy
        · rw [hw.orderly.announced]
          exact Waiter.kept_found w.store

theorem Kept.steps (hw : w.Kept) (h : Steps rule w v) : v.Kept := by
  induction h with
  | refl => exact hw
  | tail _ hstep ih => exact ih.step hstep

/-- However requests, openings and looks follow one another from an empty store on: no waiter misses
a change of the active heads. -/
theorem attentive_of_steps (h : Steps rule ⟨.empty, []⟩ w) :
    ∀ x ∈ w.waiters, x.Attentive rule w.store := by
  have hempty : Kept (⟨.empty, []⟩ : Watch κ) :=
    ⟨Store.orderly_empty, fun x hx => absurd hx List.not_mem_nil⟩
  have hw := hempty.steps h
  intro x hx
  exact (hw.waiters x hx).attentive hw.orderly rule

def found (i : Nat) (w : Watch κ) : Watch κ :=
  ⟨w.store, w.waiters.set i
    ⟨⟨some w.store.announcement.version⟩, some w.store.announcement.heads, []⟩⟩

theorem step_found {i : Nat} {x : Waiter κ} (hi : w.waiters[i]? = some x)
    (hbehind : x.watcher.seen ≠ some w.store.announcement.version) : Step rule w (w.found i) :=
  .look hi ((Store.look_eq rule x.watcher w.store).trans (if_neg hbehind))

/-- The heads change and change back before the second look, which finds them again; then nothing
happens to them, and the third look finds nothing. -/
theorem attentive_of_steps_restored :
    let rule := IdRule.sequential 1
    ∃ w v : Watch UInt64, ∃ x y : Waiter UInt64, Steps rule ⟨.empty, []⟩ w ∧ Steps rule w v ∧
      w.waiters = [x] ∧ x.found = some (.single 1) ∧ x.since = [.single 2, .single 1] ∧
      (Store.repository rule).look x.watcher w.store ≠ none ∧
      v.waiters = [y] ∧ y.since = [.single 1] ∧
      (Store.repository rule).look y.watcher v.store = none ∧
      y.found = some v.store.activeHeads := by
  intro rule
  let start : Watch UInt64 := (⟨.empty, []⟩ : Watch UInt64)
    |>.request rule (.push [⟨1, ∅, 1, 0, none⟩, ⟨2, .single 1 [], 2, 0, none⟩])
    |>.request rule (.updateHeads (.single 1) ∅)
    |>.opened
  let w : Watch UInt64 := start.found 0
    |>.request rule (.updateHeads (.single 2) (.single 1))
    |>.request rule (.updateHeads (.single 1) (.single 2))
  let v : Watch UInt64 := (w.found 0).request rule (.saveSnapshot 1 [])
  let x : Waiter UInt64 := ⟨⟨some 1⟩, some (.single 1), [.single 2, .single 1]⟩
  let y : Waiter UInt64 := ⟨⟨some 3⟩, some (.single 1), [.single 1]⟩
  have hwx : w.waiters = [x] := by decide +kernel
  have hvy : v.waiters = [y] := by decide +kernel
  have hstart : Steps rule ⟨.empty, []⟩ start :=
    .tail (.tail (.tail .refl (.request _ _)) (.request _ _)) (.opened _)
  have hfirst : Step rule start (start.found 0) :=
    step_found (x := {}) (by decide +kernel) (by decide +kernel)
  have hw : Steps rule ⟨.empty, []⟩ w :=
    .tail (.tail (.tail hstart hfirst) (.request _ _)) (.request _ _)
  have hsecond : Step rule w (w.found 0) :=
    step_found (x := x) (by rw [hwx]; rfl) (by decide +kernel)
  have hv : Steps rule w v := .tail (.single hsecond) (.request _ _)
  have hx := attentive_of_steps hw x (hwx ▸ List.mem_cons_self)
  have hy := attentive_of_steps (hw.trans hv) y (hvy ▸ List.mem_cons_self)
  have hchanged : ¬ x.Steady := by
    intro h
    rcases h with ⟨heads, hheads, hsince⟩
    cases hheads
    exact absurd (hsince _ List.mem_cons_self) (by decide)
  have hsteady : y.Steady := ⟨.single 1, rfl, fun g hg => List.mem_singleton.1 hg⟩
  clear_value w v
  exact ⟨w, v, x, y, hw, hv, hwx, rfl, rfl, mt hx.pending.1 hchanged, hvy, rfl,
    hy.pending.2 hsteady, hy.current (hy.pending.2 hsteady)⟩

end Watch

end Confluence
