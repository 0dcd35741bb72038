import Confluence.Proofs.Concurrency.Publish
import Confluence.Proofs.Repository.Merging

/-!
# What is published stays published

However the requests of any number of operations follow each other, and whichever of them fail or
are given up, a commit that is a head or below one stays so. Once an operation has changed the
heads, all that it has pushed is below them.

The invariant of a run says that the store is ready, that every operation keeps the rules from where
it stands, and that what a published operation has pushed is covered. A step keeps it: the operation
whose request is answered has kept the rules, and the others rely on no more than that.
-/

namespace Confluence.System

open Guard

variable {κ : Type} [CommitId κ] {rule : IdRule κ} {s t : System κ}

structure Sane (rule : IdRule κ) (s : System κ) : Prop where
  ready : s.store.Ready
  keeps : ∀ a ∈ s.activities, Keeps rule a.program s.store a.ledger
  covered : ∀ a ∈ s.activities, a.ledger.published = true → ∀ x ∈ a.ledger.pushed, s.store.Covers x

theorem sane_of_idle (hready : s.store.Ready) (hidle : s.activities = []) : Sane rule s := by
  refine ⟨hready, ?_, ?_⟩
  · simp [hidle]
  · simp [hidle]

/-- An operation that has published pushes nothing more. -/
theorem pushes_eq_nil {r : Request κ} {st : Store κ} {l : Ledger κ} {a : Except Fault r.Answer}
    (hr : Permits r st l) (h : (l.note r a).published = true) : r.pushes = [] := by
  cases r with
  | push commits =>
      simp [Ledger.note, Request.publishes, hr.1] at h
  | create => rfl
  | updateHeads => rfl
  | allHeads => rfl
  | activeHeads => rfl
  | loadCommit => rfl
  | loadSnapshot => rfl
  | saveSnapshot => rfl
  | countCommits => rfl

theorem Sane.step (hs : Sane rule s) (h : Step rule s t) :
    Sane rule t ∧ ∀ x, s.store.Covers x → t.store.Covers x := by
  cases h with
  | start o ho =>
      refine ⟨⟨hs.ready, fun a ha => ?_, fun a ha => ?_⟩, fun x hx => hx⟩
      · rcases List.mem_append.1 ha with ha | ha
        · exact hs.keeps a ha
        · cases List.mem_singleton.1 ha
          exact keeps_program ho
      · rcases List.mem_append.1 ha with ha | ha
        · exact hs.covered a ha
        · cases List.mem_singleton.1 ha
          intro hpub
          cases hpub
  | @request i r next l answer u hi ha =>
      have hmem : ⟨.call r next, l⟩ ∈ s.activities := List.mem_of_getElem? hi
      obtain ⟨hpermits, hnext⟩ := (hs.keeps _ hmem).request hs.ready ha
      have hkept := kept_of_responds hs.ready hpermits ha
      refine ⟨⟨hkept.rely.ready, fun a hmem' => ?_, fun a hmem' hpub x hx => ?_⟩, hkept.covers⟩
      · rcases List.mem_or_eq_of_mem_set hmem' with hold | rfl
        · exact (hs.keeps a hold).rely hkept.rely
        · exact hnext
      · rcases List.mem_or_eq_of_mem_set hmem' with hold | rfl
        · exact hkept.covers x (hs.covered a hold hpub x hx)
        · have hnil := pushes_eq_nil hpermits hpub
          have hx : x ∈ l.pushed := by simpa [Ledger.note, hnil] using hx
          have hor : l.published = true ∨ r.publishes answer = true := by
            simpa [Ledger.note] using hpub
          rcases hor with hbefore | hnow
          · exact hkept.covers x (hs.covered _ hmem hbefore x hx)
          · exact hkept.published hnow x hx

theorem Sane.steps (hs : Sane rule s) (h : Steps rule s t) :
    Sane rule t ∧ ∀ x, s.store.Covers x → t.store.Covers x := by
  induction h with
  | refl => exact ⟨hs, fun x hx => hx⟩
  | tail _ hstep ih =>
      obtain ⟨hu, hcovers⟩ := ih
      obtain ⟨ht, hcovers'⟩ := hu.step hstep
      exact ⟨ht, fun x hx => hcovers' x (hcovers x hx)⟩

/-- What is covered in a run stays covered, and so is everything that a published operation has
pushed. -/
theorem covers_of_steps {start : System κ} (hready : start.store.Ready)
    (hidle : start.activities = []) (hs : Steps rule start s) (ht : Steps rule s t) :
    (∀ x, s.store.Covers x → t.store.Covers x) ∧
      ∀ a ∈ t.activities, a.ledger.published = true → ∀ x ∈ a.ledger.pushed, t.store.Covers x := by
  obtain ⟨hsane, -⟩ := (sane_of_idle hready hidle).steps hs
  obtain ⟨hsane', hcovers⟩ := hsane.steps ht
  exact ⟨hcovers, hsane'.covered⟩

/-! ## Two pushes that have read the same heads -/

/-- The system after the next request of an operation has been answered without a fault. -/
def ask? (rule : IdRule κ) (s : System κ) (i : Nat) : Option (System κ) :=
  match s.activities[i]? with
  | some ⟨.call r next, l⟩ =>
    let (a, t) := s.store.answer rule r
    some ⟨t, s.activities.set i ⟨next a, l.note r a⟩⟩
  | _ => none

def asks? (rule : IdRule κ) : List Nat → System κ → Option (System κ)
  | [], s => some s
  | i :: l, s => (ask? rule s i).bind (asks? rule l)

theorem step_of_ask {i : Nat} (h : ask? rule s i = some t) : Step rule s t := by
  unfold ask? at h
  split at h
  next r next l hi =>
    cases h
    exact .request hi (.inl rfl)
  next => cases h

theorem steps_of_asks {l : List Nat} (h : asks? rule l s = some t) : Steps rule s t := by
  induction l generalizing s with
  | nil =>
      cases h
      exact .refl
  | cons i l ih =>
      obtain ⟨u, hu, ht⟩ := Option.bind_eq_some_iff.1 h
      exact .head (step_of_ask hu) (ih ht)

def rooted : Store UInt64 where
  commits := .single 1 ⟨1, ∅, 1, 0, none⟩
  heads := .single 1
  serial := 3

theorem admissible_child (id : UInt64) (v : String) :
    (Publication.push (Merge.child id v)).Admissible rooted := by
  refine ⟨List.nodup_singleton _, fun c hc p hp => ?_⟩
  cases List.mem_singleton.1 hc
  have hparents : (Merge.child id v).parents = .single 1 [Document.edit ∅ "k" (some v)] := rfl
  obtain rfl : p = 1 := (History.mem_parentIds_single hparents).1 hp
  exact ⟨⟨1, ∅, 1, 0, none⟩, .inl rfl, Nat.one_lt_two⟩

/-- Two children of the root are pushed at the same time, and both operations read the root as the
only head. Each replaces it by its own commit, the second one when the root is no head any more. The
root stays covered, and so does the first child when the second one comes. -/
theorem covers_of_steps_stale : ∃ s t u : System UInt64,
    Steps (.sequential 1) ⟨rooted, []⟩ s ∧ Steps (.sequential 1) s t ∧
    Steps (.sequential 1) t u ∧ s.store.heads = .single 1 ∧ t.store.heads = .single 2 ∧
    u.store.heads = .ofList [2, 3] ∧ (s.store.Covers 1 ∧ t.store.Covers 1 ∧ u.store.Covers 1) ∧
    (t.store.Covers 2 ∧ u.store.Covers 2) ∧ u.store.Covers 3 := by
  have hready : rooted.Ready := by
    refine ⟨(History.sound_single ⟨1, ∅, 1, 0, none⟩ rfl).toGraded, fun x hx => ?_⟩
    rw [OrdSet.mem_single.1 hx]
    exact ⟨_, rfl⟩
  have hstart : Steps (.sequential 1) ⟨rooted, []⟩ _ :=
    .tail (.single (.start _ (admissible_child 2 "a"))) (.start _ (admissible_child 3 "b"))
  have hrun : ∃ s t u : System UInt64,
      asks? (.sequential 1) [0, 1, 0, 1, 0, 1, 0, 1, 0, 1] ⟨rooted,
        [⟨(Publication.push (Merge.child 2 "a")).program, {}⟩,
          ⟨(Publication.push (Merge.child 3 "b")).program, {}⟩]⟩ = some s ∧
      asks? (.sequential 1) [0] s = some t ∧ asks? (.sequential 1) [1] t = some u ∧
      s.store.heads = .single 1 ∧ t.store.heads = .single 2 ∧ u.store.heads = .ofList [2, 3] ∧
      (∃ a ∈ t.activities, a.ledger = ⟨[2], true⟩) ∧ ∃ a ∈ u.activities, a.ledger = ⟨[3], true⟩ :=
    ⟨_, _, _, rfl, rfl, rfl, rfl, rfl, rfl, ⟨_, List.mem_cons_self, rfl⟩,
      ⟨_, List.mem_cons_of_mem _ List.mem_cons_self, rfl⟩⟩
  obtain ⟨s, t, u, hs, ht, hu, hsheads, htheads, huheads, ⟨a, ha, hledger⟩, b, hb, hledger'⟩ := hrun
  have hs := hstart.trans (steps_of_asks hs)
  have ht := steps_of_asks ht
  have hu := steps_of_asks hu
  obtain ⟨hst, htpublished⟩ := covers_of_steps hready rfl hs ht
  obtain ⟨htu, hupublished⟩ := covers_of_steps hready rfl (hs.trans ht) hu
  have hroot : s.store.Covers 1 := ⟨1, hsheads ▸ OrdSet.mem_single.2 rfl, .refl 1⟩
  have hfirst : t.store.Covers 2 := htpublished a ha (by rw [hledger]) 2 (by simp [hledger])
  have hsecond : u.store.Covers 3 := hupublished b hb (by rw [hledger']) 3 (by simp [hledger'])
  exact ⟨s, t, u, hs, ht, hu, hsheads, htheads, huheads,
    ⟨hroot, hst 1 hroot, htu 1 (hst 1 hroot)⟩, ⟨hfirst, htu 2 hfirst⟩, hsecond⟩

end Confluence.System
