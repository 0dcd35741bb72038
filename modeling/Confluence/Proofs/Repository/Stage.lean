import Confluence.Proofs.Repository.Merging
import Mathlib.Algebra.Group.Nat.Defs

/-!
# Histories with one head

Clients that push and merge keep one head, above which nothing is lost. A stage is a store with the
documents of its commits and its head; it is valid if the history is sound, starts with one root
whose document is empty and which alone has a snapshot, and holds only commits that were built with
ids the repository had given. From a stage to a later one the history grows and the head rises; what
is new beside merges is the commit of the client that acts.
-/

namespace Confluence

open History

variable {κ : Type} [CommitId κ]

/-! ## Ids -/

namespace IdRule

variable {rule : IdRule κ} {m m' n n' limit : Nat} {c d : Commit κ}

def Gives (rule : IdRule κ) (m n : Nat) (c : Commit κ) : Prop :=
  ∃ i, m ≤ i ∧ i < n ∧
    c = ⟨rule.assign i c.epoch c.parents c.level, c.parents, c.level, c.epoch, none⟩

/-- As long as no more ids are given than the limit, commits that are built one after the other and
share an id are the same. Numbers meet this up to the limit; digests cannot, being fewer than the
contents, and where ids are digests it is asked of the merges at hand alone (`IdRule.Fits`). -/
def Separates (rule : IdRule κ) (limit : Nat) : Prop :=
  ∀ {n c d}, rule.Gives 0 n c → rule.Gives n limit d → c.id = d.id → c = d

theorem Gives.mono (h : rule.Gives m n c) (hm : m' ≤ m) (hn : n ≤ n') : rule.Gives m' n' c := by
  rcases h with ⟨i, hmi, hin, hc⟩
  exact ⟨i, Nat.le_trans hm hmi, Nat.lt_of_lt_of_le hin hn, hc⟩

theorem gives_next (rule : IdRule κ) (n epoch : Nat) (parents : Edges κ) (level : Nat) :
    rule.Gives n (n + 1) ⟨rule.assign n epoch parents level, parents, level, epoch, none⟩ :=
  ⟨n, Nat.le_refl n, Nat.lt_succ_self n, rfl⟩

/-- An id that is given next is free, or belongs to a commit that was built alike. -/
theorem Separates.fits (hrule : rule.Separates limit) (hn : n < limit) {h : History κ}
    (hgiven : ∀ id b, h.get? id = some b → b.id = id ∧ rule.Gives 0 n b) (heads : OrdSet κ) :
    rule.Fits h heads n := by
  intro p b _ hb
  obtain ⟨hid, hb⟩ := hgiven _ b hb
  have hnext := (rule.gives_next n p.epoch p.edges p.level).mono (Nat.le_refl _) hn
  rw [hrule hb hnext hid]
  exact ⟨rfl, rfl, rfl⟩

/-- Numbers do not repeat before they have run through all values. -/
theorem sequential_separates (first : UInt64) : (sequential first).Separates (2 ^ 64) := by
  intro n c d hc hd hid
  rcases hc with ⟨i, -, hi, hc⟩
  rcases hd with ⟨j, hj, hlt, hd⟩
  have hci : c.id = first + UInt64.ofNat i := congrArg Commit.id hc
  have hdj : d.id = first + UInt64.ofNat j := congrArg Commit.id hd
  rw [hci, hdj, UInt64.add_right_inj] at hid
  have hnat := congrArg UInt64.toNat hid
  rw [UInt64.toNat_ofNat', UInt64.toNat_ofNat', Nat.mod_eq_of_lt (by omega),
    Nat.mod_eq_of_lt hlt] at hnat
  omega

end IdRule

/-! ## Stages -/

structure Site (κ : Type) [CommitId κ] where
  rule : IdRule κ
  limit : Nat
  separates : rule.Separates limit
  root : κ

structure Stage (κ : Type) [CommitId κ] where
  store : Store κ
  doc : κ → Document
  head : κ

namespace Stage

abbrev history (x : Stage κ) : History κ := x.store.commits

structure Valid (w : Site κ) (x : Stage κ) : Prop where
  sound : Sound x.history x.doc
  heads : x.store.heads = .single x.head
  stored : ∃ c, x.history.get? x.head = some c
  rooted : ∀ id c, x.history.get? id = some c → x.history.Ancestor w.root id
  blank : x.doc w.root = ∅
  snapshots : x.store.snapshots = .single w.root []
  given : ∀ id c, x.history.get? id = some c → w.rule.Gives 0 x.store.serial c
  limit : x.store.serial ≤ w.limit

/-- What a valid stage has become after requests of a client that pushes commits of its own. -/
structure Later (w : Site κ) (own : Commit κ → Prop) (x y : Stage κ) : Prop
    extends Valid w y where
  history : Extends x.history y.history
  agrees : ∀ id c, x.history.get? id = some c → y.doc id = x.doc id
  rises : y.history.Ancestor x.head y.head
  serial : x.store.serial ≤ y.store.serial
  added : ∀ id c, y.history.get? id = some c → x.history.get? id = some c ∨ own c ∨
    w.rule.Gives x.store.serial y.store.serial c

variable {w : Site κ} {own : Commit κ → Prop} {x y z : Stage κ}

theorem valid_of_started {epoch : Nat} {t : Store κ} (ht : t.Started w.rule epoch w.root)
    (hlimit : 1 ≤ w.limit) : Valid w ⟨t, fun _ => ∅, w.root⟩ := by
  have hget {id : κ} {c : Commit κ} (hc : t.commits.get? id = some c) :
      id = w.root ∧ c = ⟨w.root, ∅, 1, epoch, none⟩ := by
    rw [ht.commits, OrdMap.get?_single] at hc
    split at hc
    next hid =>
      cases hc
      exact ⟨hid, rfl⟩
    next => cases hc
  constructor
  · rw [history, ht.commits]
    exact sound_single ⟨w.root, ∅, 1, epoch, none⟩ rfl
  · exact ht.heads
  · exact ⟨_, by rw [history, ht.commits, OrdMap.get?_single, if_pos rfl]⟩
  · intro id c hc
    rw [(hget hc).1]
    exact .refl _
  · rfl
  · exact ht.snapshots
  · intro id c hc
    refine ⟨0, Nat.le_refl 0, ?_, ?_⟩
    · rw [ht.serial]
      exact Nat.one_pos
    · rw [(hget hc).2, ht.id]
  · rw [ht.serial]
    exact hlimit

namespace Valid

theorem later_refl (hx : x.Valid w) : Later w own x x :=
  { hx with
    history := .refl _
    agrees := fun _ _ _ => rfl
    rises := .refl _
    serial := Nat.le_refl _
    added := fun _ _ hc => .inl hc }

theorem root_stored (hx : x.Valid w) : ∃ c, x.history.get? w.root = some c := by
  rcases hx.stored with ⟨c, hc⟩
  exact hx.sound.exists_of_ancestor (hx.rooted _ c hc) hc

theorem activeHeads (hx : x.Valid w) : x.store.activeHeads = .single x.head :=
  Store.activeHeads_single hx.heads

theorem fits (hx : x.Valid w) (hserial : x.store.serial + 1 ≤ w.limit) (heads : OrdSet κ) :
    w.rule.Fits x.history heads x.store.serial :=
  IdRule.Separates.fits w.separates hserial (fun id c hc => ⟨hx.sound.filed hc, hx.given id c hc⟩)
    heads

end Valid

/-- The commit that a client pushes later is the one that it had, or has been built since. -/
theorem Later.trans {own' : Commit κ → Prop} (h : Later w own x y)
    (k : Later w own' y z) (hown : ∀ c, own' c →
      own c ∨ w.rule.Gives x.store.serial y.store.serial c) :
    Later w own x z := by
  refine { k.toValid with
    history := h.history.trans k.history
    agrees := fun id c hc => ?_
    rises := (k.history.ancestor h.rises).trans k.rises
    serial := Nat.le_trans h.serial k.serial
    added := fun id c hc => ?_ }
  · rw [k.agrees id c (h.history id c hc), h.agrees id c hc]
  · rcases k.added id c hc with hc | hc | hnew
    · rcases h.added id c hc with hc | hc | hnew
      · exact .inl hc
      · exact .inr (.inl hc)
      · exact .inr (.inr (hnew.mono (Nat.le_refl _) k.serial))
    · rcases hown c hc with hc | hnew
      · exact .inr (.inl hc)
      · exact .inr (.inr (hnew.mono (Nat.le_refl _) k.serial))
    · exact .inr (.inr (hnew.mono h.serial (Nat.le_refl _)))

namespace Valid

theorem later_count (hx : x.Valid w) (hlimit : x.store.serial + 1 ≤ w.limit) :
    Later w own x { x with store := { x.store with serial := x.store.serial + 1 } } where
  sound := hx.sound
  heads := hx.heads
  stored := hx.stored
  rooted := hx.rooted
  blank := hx.blank
  snapshots := hx.snapshots
  given := fun id c hc => (hx.given id c hc).mono (Nat.le_refl _) (Nat.le_succ _)
  limit := hlimit
  history := .refl _
  agrees := fun _ _ _ => rfl
  rises := .refl _
  serial := Nat.le_succ _
  added := fun _ _ hc => .inl hc

/-- A commit is stored that was not stored before; it lies above stored ones. -/
theorem later_insert (hx : x.Valid w) {t : Store κ} {doc : κ → Document} {c : Commit κ}
    (hothers : ∀ id, id ≠ c.id → t.commits.get? id = x.history.get? id)
    (hc : t.commits.get? c.id = some c) (hhistory : Extends x.history t.commits)
    (hsound : Sound t.commits doc)
    (hagrees : ∀ id d, x.history.get? id = some d → doc id = x.doc id)
    (hheads : t.heads = x.store.heads) (hsnapshots : t.snapshots = x.store.snapshots)
    (hserial : x.store.serial ≤ t.serial) (hlimit : t.serial ≤ w.limit) {p : κ}
    (hp : p ∈ c.parentIds) (hstored : ∃ q, x.history.get? p = some q)
    (hown : own c ∧ w.rule.Gives 0 x.store.serial c ∨ x.history.get? c.id = some c ∨
      w.rule.Gives x.store.serial t.serial c) :
    Later w own x ⟨t, doc, x.head⟩ := by
  have hcases {id : κ} {d : Commit κ} (hd : t.commits.get? id = some d) :
      x.history.get? id = some d ∨ id = c.id ∧ d = c := by
    by_cases hid : id = c.id
    · rw [hid, hc] at hd
      exact .inr ⟨hid, (Option.some.inj hd).symm⟩
    · rw [hothers id hid] at hd
      exact .inl hd
  rcases hx.stored with ⟨h, hh⟩
  rcases hx.root_stored with ⟨r, hr⟩
  constructor
  · constructor
    · exact hsound
    · exact hheads.trans hx.heads
    · exact ⟨h, hhistory _ h hh⟩
    · intro id d hd
      rcases hcases hd with hd | ⟨rfl, rfl⟩
      · exact hhistory.ancestor (hx.rooted id d hd)
      · rcases hstored with ⟨q, hq⟩
        have hparent : IsParent t.commits p d.id := (isParent_iff hc).2 hp
        exact (hhistory.ancestor (hx.rooted p q hq)).trans hparent.ancestor
    · exact (hagrees w.root r hr).trans hx.blank
    · exact hsnapshots.trans hx.snapshots
    · intro id d hd
      rcases hcases hd with hd | ⟨rfl, rfl⟩
      · exact (hx.given id d hd).mono (Nat.le_refl _) hserial
      · rcases hown with ⟨-, hgiven⟩ | hd | hnew
        · exact hgiven.mono (Nat.le_refl _) hserial
        · exact (hx.given _ d hd).mono (Nat.le_refl _) hserial
        · exact hnew.mono (Nat.zero_le _) (Nat.le_refl _)
    · exact hlimit
  · exact hhistory
  · exact hagrees
  · exact .refl _
  · exact hserial
  · intro id d hd
    rcases hcases hd with hd | ⟨rfl, rfl⟩
    · exact .inl hd
    · rcases hown with ⟨hown, -⟩ | hd | hnew
      · exact .inr (.inl hown)
      · exact .inl hd
      · exact .inr (.inr hnew)

theorem exists_later_push (hx : x.Valid w) {c q : Commit κ} {p : κ} {edge : List Operation}
    (hparents : c.parents = .single p edge) (hq : x.history.get? p = some q)
    (hlt : q.level < c.level) (hanchors : (x.doc p).Anchors edge)
    (hgiven : w.rule.Gives 0 x.store.serial c)
    (hsame : ∀ d, x.history.get? c.id = some d → d = c) :
    ∃ y, x.store.push [c] = (.ok (), y.store) ∧ Later w (fun d => d = c) x y ∧
      y.history.get? c.id = some c ∧ y.head = x.head := by
  have hparent : ∀ i ∈ c.parentIds, ∃ q, x.history.get? i = some q ∧ q.level < c.level := by
    intro i hi
    rw [(mem_parentIds_single hparents).1 hi]
    exact ⟨q, hq, hlt⟩
  have hcontent : ∀ d, x.history.get? c.id = some d → d.sameContent c = true := by
    intro d hd
    rw [hsame d hd]
    simp [Commit.sameContent]
  rcases Store.push_singleton hcontent hparent with ⟨t, ht, hpushed⟩
  have hothers : ∀ id, id ≠ c.id → t.commits.get? id = x.history.get? id := by
    intro id hid
    rw [hpushed.get?_singleton, if_neg hid, Option.or_none]
  have hserial : x.store.serial ≤ t.serial := Nat.le_of_eq hpushed.serial.symm
  have hlimit : t.serial ≤ w.limit := by
    rw [hpushed.serial]
    exact hx.limit
  have hown : c = c ∧ w.rule.Gives 0 x.store.serial c ∨ x.history.get? c.id = some c ∨
      w.rule.Gives x.store.serial t.serial c := .inl ⟨rfl, hgiven⟩
  have hp : p ∈ c.parentIds := (mem_parentIds_single hparents).2 rfl
  cases hold : x.history.get? c.id with
  | none =>
      have hc : t.commits.get? c.id = some c := by
        rw [hpushed.get?_singleton, hold, Option.none_or, if_pos rfl]
      have hsound : Sound t.commits (Function.update x.doc c.id ((x.doc p).applyAll edge)) := by
        rw [hpushed.commits_eq_insert hold]
        exact hx.sound.insert_child c hold hparents hq hlt hanchors
      have hagrees : ∀ id d, x.history.get? id = some d →
          Function.update x.doc c.id ((x.doc p).applyAll edge) id = x.doc id := by
        intro id d hd
        apply Function.update_of_ne
        intro hid
        rw [hid, hold] at hd
        cases hd
      refine ⟨_, ht, hx.later_insert hothers hc hpushed.history_extends hsound hagrees
        hpushed.heads hpushed.snapshots hserial hlimit hp ⟨q, hq⟩ hown, hc, rfl⟩
  | some d =>
      -- the commit was stored by an earlier push that was not acknowledged
      have hd : d = c := hsame d hold
      have hc : t.commits.get? c.id = some c := by
        rw [hpushed.get?_singleton, hold, hd, Option.some_or]
      have hcommits : t.commits = x.history := hpushed.commits_eq_self hold
      have hsound : Sound t.commits x.doc := by
        rw [hcommits]
        exact hx.sound
      refine ⟨_, ht, hx.later_insert hothers hc hpushed.history_extends hsound (fun _ _ _ => rfl)
        hpushed.heads hpushed.snapshots hserial hlimit hp ⟨q, hq⟩ hown, hc, rfl⟩

theorem later_merged (hx : x.Valid w) {heads : OrdSet κ} {m : Commit κ}
    {doc : κ → Document} {t : Store κ} (hne : ∃ id, id ∈ heads)
    (hheads : ∀ id ∈ heads, ∃ c, x.history.get? id = some c)
    (hm : Store.Merged w.rule x.store x.doc heads m doc t) (hlimit : t.serial ≤ w.limit) :
    Later w own x ⟨t, doc, x.head⟩ := by
  rcases hne with ⟨p, hp⟩
  have hserial : x.store.serial ≤ t.serial := by
    rw [hm.serial]
    exact Nat.le_succ _
  have hparent : p ∈ m.parentIds := (hm.isMerge.parents p).2 hp
  apply hx.later_insert hm.others hm.stored hm.history hm.sound hm.agrees hm.heads_eq hm.snapshots
    hserial hlimit hparent (hheads p hp)
  rcases hm.timestamp with hold | htime
  · exact .inr (.inl hold)
  · refine .inr (.inr ⟨x.store.serial, Nat.le_refl _, ?_, ?_⟩)
    · rw [hm.serial]
      exact Nat.lt_succ_self _
    · rw [← hm.id, ← htime]

/-- A stored commit above the head takes its place. -/
theorem later_moved (hx : x.Valid w) {m : κ} {t : Store κ}
    (hm : x.history.Ancestor x.head m)
    (ht : Store.HeadsMoved x.store (.single m) ((OrdSet.single x.head).erase m) t) :
    Later w own x ⟨t, x.doc, m⟩ := by
  have hcommits : t.commits = x.history := ht.commits
  constructor
  · constructor
    · simp only [Stage.history, hcommits]
      exact hx.sound
    · apply OrdSet.ext
      intro id
      rw [ht.heads, hx.heads, OrdSet.mem_erase, OrdSet.mem_single, OrdSet.mem_single]
      tauto
    · rcases ht.stored m (OrdSet.mem_single.2 rfl) with ⟨c, hc⟩
      exact ⟨c, by simpa only [Stage.history, hcommits] using hc⟩
    · simp only [Stage.history, hcommits]
      exact hx.rooted
    · exact hx.blank
    · exact ht.snapshots.trans hx.snapshots
    · simp only [Stage.history, hcommits, ht.serial]
      exact hx.given
    · rw [ht.serial]
      exact hx.limit
  · simp only [Stage.history, hcommits]
    exact .refl _
  · exact fun _ _ _ => rfl
  · simp only [Stage.history, hcommits]
    exact hm
  · exact Nat.le_of_eq ht.serial.symm
  · intro id c hc
    simp only [Stage.history, hcommits] at hc
    exact .inl hc

end Valid

end Stage

end Confluence
