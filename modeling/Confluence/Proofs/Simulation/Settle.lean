import Confluence.Proofs.History.Window
import Confluence.Proofs.Simulation.Replica
import Confluence.Proofs.Simulation.Verdict
import Confluence.Simulation.Run

/-!
# Replicas that settle

Replicas that share a repository stay consistent while they act one after the other, since no two
of them build a commit under one id. Where no request fails all of them bring their work in and
catch up with the head, so that the verdict has nothing to say against them.
-/

namespace Confluence

open History Program

section

variable {κ : Type} [CommitId κ] {w : Site κ} {x y : Stage κ} {l l' : List (Replica κ)}

/-- Replicas that fit a stage, each with a pending commit of its own. -/
structure Together (w : Site κ) (x : Stage κ) (l : List (Replica κ)) : Prop where
  consistent : ∀ r ∈ l, r.Consistent w x
  distinct : ∀ r ∈ l, ∀ r' ∈ l, ∀ c c', r.pending = some c → r'.pending = some c' →
    c.id = c'.id → c = c'

theorem together_of_started {epoch : Nat} {t : Store κ} (ht : t.Started w.rule epoch w.root)
    (count : Nat) : Together w ⟨t, fun _ => ∅, w.root⟩
      ((List.range count).map fun id => { id, cursor := w.root }) := by
  constructor
  · intro r hr
    rcases List.mem_map.1 hr with ⟨id, -, rfl⟩
    exact Replica.consistent_of_started ht id
  · intro r hr r' _ c c' hc
    rcases List.mem_map.1 hr with ⟨id, -, rfl⟩
    cases hc

theorem Together.later (h : Together w x l) (hxy : Stage.Later w (fun _ => False) x y) :
    Together w y l where
  consistent := fun r hr => (h.consistent r hr).later hxy fun _ _ _ hfalse => hfalse.elim
  distinct := h.distinct

theorem Together.became (h : Together w x l) {r r' : Replica κ} (hr : r ∈ l)
    (hxy : Stage.Later w r.Owns x y) (hr' : r.Became w x y r')
    (hl : ∀ a ∈ l', a = r' ∨ a ∈ l) : Together w y l' := by
  -- what the replica has pending now is told apart from what another one had
  have hother : ∀ a ∈ l, ∀ c c', r'.pending = some c → a.pending = some c' → c.id = c'.id →
      c = c' := by
    intro a ha c c' hc hc' hid
    rcases hr'.pending c hc with hc | hnew
    · exact h.distinct r hr a ha c c' hc hc' hid
    · have hgiven := ((h.consistent a ha).awaiting c' hc').given
      exact (w.separates hgiven (hnew.mono (Nat.le_refl _) hxy.limit) hid.symm).symm
  constructor
  · intro a ha
    rcases hl a ha with rfl | ha
    · exact hr'.consistent
    · apply (h.consistent a ha).later hxy
      intro c d hc hd hid
      exact h.distinct a ha r hr c d hc hd hid
  · intro a ha b hb c c' hc hc' hid
    rcases hl a ha with rfl | ha
    · rcases hl b hb with rfl | hb
      · exact Option.some.inj (hc.symm.trans hc')
      · exact hother b hb c c' hc hc' hid
    · rcases hl b hb with rfl | hb
      · exact (hother a ha c' c hc' hc hid.symm).symm
      · exact h.distinct a ha b hb c c' hc hc' hid

theorem mem_acted {done : List (Replica κ)} {r r' a : Replica κ}
    (ha : a ∈ (done ++ [r']) ++ l) : a = r' ∨ a ∈ done ++ r :: l := by
  simp only [List.append_assoc, List.singleton_append, List.mem_append, List.mem_cons] at ha ⊢
  tauto

def Replica.Idle (r : Replica κ) : Prop := r.pending = none ∧ r.working = []

end

/-! ## Computations without trouble -/

namespace Simulation

variable {α β : Type} {w : Site UInt64} {fails : Fault → Prop} {x : Stage UInt64}

/-- From a stage the computation leads to a later one, without trouble, and with a fitting value. -/
def Settles (w : Site UInt64) (fails : Fault → Prop) (x : Stage UInt64)
    (m : ExceptT Trouble (Program UInt64) α) (Q : α → Stage UInt64 → Prop) : Prop :=
  w.Does fails (fun _ => True) x m.run fun o y => ∃ a, o = .ok a ∧ Q a y

variable {m : ExceptT Trouble (Program UInt64) α} {Q : α → Stage UInt64 → Prop}
  {R : β → Stage UInt64 → Prop}

theorem settles_pure {a : α} (hx : x.Valid w) (ha : Q a x) : Settles w fails x (pure a) Q :=
  Site.does_pure hx ⟨a, rfl, ha⟩

theorem Settles.bind {f : α → ExceptT Trouble (Program UInt64) β} (h : Settles w fails x m Q)
    (hf : ∀ a y, Stage.Later w (fun _ => True) x y → Q a y → Settles w fails y (f a) R) :
    Settles w fails x (m >>= f) R := by
  unfold Settles
  rw [ExceptT.run_bind]
  apply Site.Does.next h
  intro o y hxy ho
  rcases ho with ⟨a, rfl, ha⟩
  exact hf a y hxy ha

theorem settles_attempt {p : Program UInt64 α} {own : Commit UInt64 → Prop}
    (trouble : Fault → Trouble) (hsure : ∀ e, ¬fails e) (hx : x.Valid w)
    (h : w.Does fails own x p Q) :
    Settles w fails x (ExceptT.mk do
      match ← p.attempt with
      | .ok a => return .ok a
      | .error e => return .error (trouble e)) fun a y => Stage.Later w own x y ∧ Q a y := by
  apply Site.Does.next (h.weaken hx fun _ _ => trivial).attempt
  intro o y hxy ho
  rcases ho with ⟨a, rfl, ha⟩ | ⟨e, -, he⟩
  · exact Site.does_pure hxy.toValid ⟨a, rfl, ha⟩
  · exact (hsure e he).elim

theorem settles_during {p : Program UInt64 α} {own : Commit UInt64 → Prop} (context : String)
    (hsure : ∀ e, ¬fails e) (hx : x.Valid w) (h : w.Does fails own x p Q) :
    Settles w fails x (during context p) fun a y => Stage.Later w own x y ∧ Q a y :=
  settles_attempt (fun e => ⟨context, [e.message]⟩) hsure hx h

theorem settles_plainly {p : Program UInt64 α} {own : Commit UInt64 → Prop}
    (hsure : ∀ e, ¬fails e) (hx : x.Valid w) (h : w.Does fails own x p Q) :
    Settles w fails x (plainly p) fun a y => Stage.Later w own x y ∧ Q a y :=
  settles_attempt (fun e => ⟨e.message, []⟩) hsure hx h

/-! ## Settling -/

/-- Every replica brings its work in; `done` are those that have. -/
theorem settles_flushAll {done l : List (Replica UInt64)} (hsure : ∀ e, ¬fails e)
    (hx : x.Valid w) (hl : Together w x (done ++ l)) (hdone : ∀ r ∈ done, r.Idle) :
    Settles w fails x (flushAll l) fun l' y => Together w y (done ++ l') ∧
      (∀ r ∈ done ++ l', r.Idle) ∧ l'.map Replica.id = l.map Replica.id := by
  induction l generalizing x done with
  | nil =>
      apply settles_pure hx
      refine ⟨hl, ?_, rfl⟩
      rw [List.append_nil]
      exact hdone
  | cons r l ih =>
      have hr : r ∈ done ++ r :: l := by simp
      have hflush : w.Does fails _ x r.flush _ := (hl.consistent r hr).does_flush hx
      apply (settles_during _ hsure hx hflush).bind
      intro a y _ ha
      rcases a with ⟨o, r'⟩
      rcases ha with ⟨hxy, hr', ⟨rfl, hpending, hworking⟩ | ⟨e, -, he⟩⟩
      · have hy : y.Valid w := hxy.toValid
        have hok : w.Does fails (fun _ => False) y (ofExcept (.ok ())) fun _ z => z = y :=
          Site.does_pure hy rfl
        apply (settles_during _ hsure hy hok).bind
        intro _ z _ hz
        rcases hz with ⟨-, rfl⟩
        have hl' : Together w z ((done ++ [r']) ++ l) :=
          hl.became hr hxy hr' fun b hb => mem_acted hb
        have hdone' : ∀ b ∈ done ++ [r'], b.Idle :=
          List.forall_mem_append.2 ⟨hdone, List.forall_mem_singleton.2 ⟨hpending, hworking⟩⟩
        apply (ih hy hl' hdone').bind
        intro rest u hzu hrest
        rcases hrest with ⟨htogether, hidle, hids⟩
        apply settles_pure hzu.toValid
        rw [List.append_assoc, List.singleton_append] at htogether hidle
        refine ⟨htogether, hidle, ?_⟩
        rw [List.map_cons, List.map_cons, hids, hr'.id]
      · exact (hsure e he).elim

/-- Every idle replica catches up, and the head stays where it is. -/
theorem settles_fetchAll {done l : List (Replica UInt64)} (hsure : ∀ e, ¬fails e)
    (hx : x.Valid w) (hl : Together w x (done ++ l)) (hidle : ∀ r ∈ done ++ l, r.Idle)
    (hdone : ∀ r ∈ done, r.cursor = x.head) :
    Settles w fails x (fetchAll l) fun l' y => y = x ∧ Together w x (done ++ l') ∧
      (∀ r ∈ done ++ l', r.Idle ∧ r.cursor = x.head) ∧ l'.map Replica.id = l.map Replica.id := by
  induction l generalizing done with
  | nil =>
      apply settles_pure hx
      refine ⟨rfl, hl, ?_, rfl⟩
      intro r hr
      refine ⟨hidle r hr, ?_⟩
      rw [List.append_nil] at hr
      exact hdone r hr
  | cons r l ih =>
      have hr : r ∈ done ++ r :: l := by simp
      have hfetch : w.Does fails _ x r.fetch _ := (hl.consistent r hr).does_fetch hx
      apply (settles_during _ hsure hx hfetch).bind
      intro a y _ ha
      rcases a with ⟨f, r'⟩
      rcases ha with ⟨hxy, rfl, hr', hmoved⟩
      rcases hmoved (hidle r hr).1 (hidle r hr).2 with ⟨hpending, hworking, hcursor⟩
      have hl' : Together w y ((done ++ [r']) ++ l) :=
        hl.became hr hxy hr' fun b hb => mem_acted hb
      have hidle' : ∀ b ∈ (done ++ [r']) ++ l, b.Idle := by
        intro b hb
        rcases mem_acted hb with rfl | hb
        · exact ⟨hpending, hworking⟩
        · exact hidle b hb
      have hdone' : ∀ b ∈ done ++ [r'], b.cursor = y.head :=
        List.forall_mem_append.2 ⟨hdone, List.forall_mem_singleton.2 hcursor⟩
      apply (ih hl' hidle' hdone').bind
      intro rest u _ hrest
      rcases hrest with ⟨rfl, htogether, hfinal, hids⟩
      apply settles_pure hx
      rw [List.append_assoc, List.singleton_append] at htogether hfinal
      refine ⟨rfl, htogether, hfinal, ?_⟩
      rw [List.map_cons, List.map_cons, hids, hr'.id]

theorem follows_view {s : Settled UInt64} {r : Replica UInt64} (hr : r.Consistent w x)
    (hidle : r.Idle) (hcursor : r.cursor = x.head) (hcheckout : s.checkout = x.doc x.head)
    (hgraph : s.graph.Shows x.history (.single x.head)) : s.Follows x.head r.view where
  cursor := hcursor
  document := by
    rw [hcheckout, ← hcursor]
    exact hr.document_eq hidle.1 hidle.2
  uncommitted := List.length_eq_zero_iff.2 hidle.2
  unacknowledged := by
    rw [Replica.view, hidle.1]
    rfl
  authored := by
    intro c hc
    rcases hr.authored c hc with ha | ⟨d, hd, -⟩
    · rw [hcursor] at ha
      rcases ancestor_iff_eq_or_proper.1 ha with heq | hproper
      · exact .inl heq
      · exact .inr (hgraph.transGen_of_proper (OrdSet.mem_single.2 rfl) hproper)
    · cases hidle.1.symm.trans hd

/-- The last act ends without trouble, with all replicas on the head. -/
theorem settles_settle {l : List (Replica UInt64)} {unexpected : List (Nat × String)}
    (hsure : ∀ e, ¬fails e) (hx : x.Valid w) (hl : Together w x l) :
    Settles w fails x (settle l unexpected) fun a y => a.1 = y.head ∧
      a.2.replicas.map ReplicaView.id = l.map Replica.id ∧
        (unexpected = [] → a.2.Converged y.head) := by
  have hstart : Together w x ([] ++ l) := hl
  apply (settles_flushAll hsure hx hstart (by simp)).bind
  intro l₁ y hxy h₁
  rcases h₁ with ⟨h₁, hidle₁, hids₁⟩
  have hmerge : w.Does fails (fun _ => False) y Merge.mergeHeads _ :=
    Site.does_mergeHeads hxy.toValid
  apply (settles_during _ hsure hxy.toValid hmerge).bind
  intro head z _ hz
  rcases hz with ⟨hyz, rfl⟩
  have hz : z.Valid w := hyz.toValid
  have h₂ : Together w z ([] ++ l₁) := h₁.later hyz
  apply (settles_fetchAll hsure hz h₂ hidle₁ (by simp)).bind
  intro l₂ u _ h₃
  rcases h₃ with ⟨rfl, h₃, hfinal, hids₂⟩
  have hheads : w.Does fails (fun _ => False) u activeHeads _ := Site.does_activeHeads hz
  apply (settles_plainly hsure hz hheads).bind
  intro heads v _ hv
  rcases hv with ⟨-, rfl, rfl⟩
  have hcheckout : w.Does fails (fun _ => False) v Node.checkout _ := Site.does_checkout hz
  apply (settles_during _ hsure hz hcheckout).bind
  intro f t _ hf
  rcases hf with ⟨-, harrives, rfl⟩
  have hload : (Window.load (.single t.head) none).Reads (t.store.view fails)
      (fun g => g.Shows t.history (.single t.head)) fails := by
    apply Window.reads_load hz.sound.toGraded.closed _ (fun g hg => hg.shows rfl) fun e he => he
    intro id hid
    rw [OrdSet.mem_single.1 hid]
    exact hz.stored
  have hgraph : w.Does fails (fun _ => False) t _ _ := Site.does_of_reads hz hload
  apply (settles_plainly hsure hz hgraph).bind
  intro g t' _ hg
  rcases hg with ⟨-, hg, rfl⟩
  apply settles_pure hz
  refine ⟨rfl, ?_, ?_⟩
  · rw [← hids₁, ← hids₂]
    simp [Replica.view]
  · intro hnone
    constructor
    · rfl
    · intro _ hview
      rcases List.mem_map.1 hview with ⟨r, hr, rfl⟩
      rcases hfinal r hr with ⟨hidle, hcursor⟩
      exact follows_view (h₃.consistent r hr) hidle hcursor harrives.leads.applyAll_eq hg
    · intro id c p q hc hp hq
      exact hg.level_lt hz.sound.toGraded hc hp hq
    · exact hnone

end Simulation

end Confluence
