import Confluence.Proofs.Repository.Batches
import Confluence.Proofs.Repository.Reproduction
import Mathlib.Data.Set.Function

/-!
# Names made from contents

The bytes from which the id of a commit is computed tell its epoch, its level and its edges with
every operation on them. So commits that repositories create have one id exactly if they have the
same content, unless two different byte strings collide under the digest. In a store that only takes
created commits a conflict would show such a collision: where the digest tells the byte strings at
hand apart, no push is ever refused for an id that is taken.
-/

namespace Confluence

open Program

/-! ## Contents -/

theorem Digest.ofText_eq (s : String) : ofText s = ofBytes (Text.bytes s) := rfl

namespace IdRule

def contentBytes (epoch : Nat) (parents : Edges Digest) (level : Nat) : List UInt8 :=
  Text.bytes (contentText epoch parents level)

theorem assign_content (serial epoch : Nat) (parents : Edges Digest) (level : Nat) :
    content.assign serial epoch parents level =
      Digest.ofBytes (contentBytes epoch parents level) := by
  rw [contentBytes, ← Digest.ofText_eq, content]

theorem contentBytes_eq_iff {epoch epoch' level level' : Nat} {parents parents' : Edges Digest} :
    contentBytes epoch parents level = contentBytes epoch' parents' level' ↔
      epoch = epoch' ∧ level = level' ∧ parents = parents' := by
  constructor
  · intro h
    obtain ⟨hepoch, hparents, hlevel⟩ := contentText_inj (Text.bytes_inj h)
    exact ⟨hepoch, hlevel, hparents⟩
  · rintro ⟨rfl, rfl, rfl⟩
    rfl

end IdRule

theorem Store.run_createFrom {κ : Type} [CommitId κ] (rule : IdRule κ) (s : Store κ) (epoch : Nat)
    (parents : Edges κ) (level : Nat) :
    ((createFrom epoch parents level).run (repository rule) s).1 =
      .ok ⟨rule.assign s.serial epoch parents level, parents, level, epoch, none⟩ := rfl

namespace Commit

variable {c d : Commit Digest}

def contentBytes (c : Commit Digest) : List UInt8 :=
  IdRule.contentBytes c.epoch c.parents c.level

/-- Some repository has created the commit, which may have got a timestamp since. -/
def Created (c : Commit Digest) : Prop :=
  ∃ s : Store Digest, ((createFrom c.epoch c.parents c.level).run (Store.repository .content) s).1 =
    .ok c.untimed

theorem addressed_iff : c.Addressed ↔ c.id = Digest.ofBytes c.contentBytes := by
  rw [Addressed, Digest.ofText_eq, contentText, contentBytes, IdRule.contentBytes]

/-- Which repository it was makes no difference: the commit has the id that its content gives
it. -/
theorem created_iff : c.Created ↔ c.Addressed := by
  have hrun (s : Store Digest) :
      ((createFrom c.epoch c.parents c.level).run (Store.repository .content) s).1 =
        .ok ⟨Digest.ofBytes c.contentBytes, c.parents, c.level, c.epoch, none⟩ := by
    rw [Store.run_createFrom, IdRule.assign_content, contentBytes]
  rw [addressed_iff]
  constructor
  · rintro ⟨s, hs⟩
    rw [hrun] at hs
    exact (congrArg Commit.id (Except.ok.inj hs)).symm
  · intro h
    refine ⟨.empty, ?_⟩
    rw [hrun, ← h]
    rfl

/-- Created commits with one id have the same content, or they show a collision. -/
theorem Created.sameContent_or_collision (hc : c.Created) (hd : d.Created) (hid : c.id = d.id) :
    c.sameContent d = true ∨ c.contentBytes ≠ d.contentBytes ∧
      Digest.ofBytes c.contentBytes = Digest.ofBytes d.contentBytes := by
  rw [created_iff] at hc hd
  by_cases hbytes : c.contentBytes = d.contentBytes
  · exact .inl (hc.sameContent hd hid fun _ => Text.bytes_inj hbytes)
  · exact .inr ⟨hbytes, (addressed_iff.1 hc).symm.trans (hid.trans (addressed_iff.1 hd))⟩

def MadeFrom (T : Set (List UInt8)) (c : Commit Digest) : Prop := c.Created ∧ c.contentBytes ∈ T

end Commit

/-! ## Stores -/

namespace Store

variable {T : Set (List UInt8)} {s t : Store Digest} {batch : List (Commit Digest)}
  {c : Commit Digest}

def MadeFrom (T : Set (List UInt8)) (s : Store Digest) : Prop :=
  ∀ id c, s.commits.get? id = some c → c.id = id ∧ c.MadeFrom T

theorem MadeFrom.answer (hs : s.MadeFrom T) (r : Request Digest)
    (hr : ∀ batch, r = .push batch → ∀ c ∈ batch, c.MadeFrom T) :
    (s.answer .content r).2.MadeFrom T := by
  rcases commits_answer .content r s with ⟨hcommits, -⟩ | ⟨batch, t, rfl, hpushed, ht⟩
  · intro id c hc
    exact hs id c (hcommits ▸ hc)
  · intro id c hc
    rw [ht] at hc
    rcases hpushed.get?_eq_some_iff.1 hc with hold | ⟨⟨-, hfirst⟩, hid⟩
    · exact hs id c hold
    · exact ⟨hid, hr batch rfl c (List.mem_of_find?_eq_some hfirst)⟩

theorem MadeFrom.after {requests : List (Request Digest)} (hs : s.MadeFrom T)
    (hr : ∀ batch, .push batch ∈ requests → ∀ c ∈ batch, c.MadeFrom T) :
    (after .content requests s).MadeFrom T := by
  induction requests generalizing s with
  | nil => exact hs
  | cons r requests ih =>
      have hstep := hs.answer r fun batch h => hr batch (h ▸ List.mem_cons_self)
      exact ih hstep fun batch h => hr batch (List.mem_cons_of_mem _ h)

/-- A conflict between created commits would be a collision. -/
theorem MadeFrom.not_clashes (hfree : Set.InjOn Digest.ofBytes T) (hs : s.MadeFrom T)
    (hc : c.MadeFrom T) : ¬s.Clashes c := by
  rw [not_clashes_iff]
  intro d hd
  obtain ⟨hid, hcreated, hbytes⟩ := hs c.id d hd
  rcases hcreated.sameContent_or_collision hc.1 hid with hsame | ⟨hne, heq⟩
  · exact hsame
  · exact absurd (hfree hbytes hc.2 heq) hne

theorem MadeFrom.push_ne_conflict (hfree : Set.InjOn Digest.ofBytes T) (hs : s.MadeFrom T)
    (hbatch : ∀ c ∈ batch, c.MadeFrom T) (text : String) :
    (s.push batch).1 ≠ .error (.commitConflict text) := by
  intro h
  obtain ⟨before, c, rest, rfl, -, hclash, -⟩ := push_eq_conflict_iff.1 h
  exact hs.not_clashes hfree (hbatch c (by simp)) hclash

theorem madeFrom_empty (T : Set (List UInt8)) : (empty : Store Digest).MadeFrom T := by
  rintro id c ⟨⟩

/-- The bytes that are hashed for a content tell the content. So where the digest tells such bytes
apart, two created commits have one id exactly if their epochs, levels and edges are the same, and
a store that has only taken created commits refuses none of them for a conflict. -/
theorem content_names_commits {T : Set (List UInt8)} (hfree : Set.InjOn Digest.ofBytes T) :
    (∀ serial epoch (parents : Edges Digest) level,
      IdRule.content.assign serial epoch parents level =
        Digest.ofBytes (IdRule.contentBytes epoch parents level)) ∧
    (∀ epoch epoch' (parents parents' : Edges Digest) level level',
      IdRule.contentBytes epoch parents level = IdRule.contentBytes epoch' parents' level' →
        epoch = epoch' ∧ level = level' ∧ parents = parents') ∧
    (∀ (s t : Store Digest) epoch epoch' (parents parents' : Edges Digest) level level',
      IdRule.contentBytes epoch parents level ∈ T →
      IdRule.contentBytes epoch' parents' level' ∈ T →
        ∃ c d, ((createFrom epoch parents level).run (repository .content) s).1 = .ok c ∧
          ((createFrom epoch' parents' level').run (repository .content) t).1 = .ok d ∧
          (c.id = d.id ↔ epoch = epoch' ∧ level = level' ∧ parents = parents')) ∧
    ∀ (earlier : List (Request Digest)) (batch : List (Commit Digest)),
      (∀ l : List (Commit Digest), Request.push l ∈ earlier ++ [Request.push batch] →
        ∀ c ∈ l, c.Created ∧ c.contentBytes ∈ T) →
        ∀ text, ((Program.push batch).run (repository .content)
          (after .content earlier empty)).1 ≠ .error (.commitConflict text) := by
  refine ⟨IdRule.assign_content, fun _ _ _ _ _ _ => IdRule.contentBytes_eq_iff.1, ?_, ?_⟩
  · intro s t epoch epoch' parents parents' level level' hT hT'
    refine ⟨_, _, run_createFrom .., run_createFrom .., ?_⟩
    rw [IdRule.assign_content, IdRule.assign_content, ← IdRule.contentBytes_eq_iff]
    exact hfree.eq_iff hT hT'
  · intro earlier batch hcreated text h
    have hstore : (after .content earlier empty).MadeFrom T :=
      (madeFrom_empty T).after fun l hl => hcreated l (List.mem_append_left _ hl)
    have hbatch : ∀ c ∈ batch, c.MadeFrom T := hcreated batch (by simp)
    exact hstore.push_ne_conflict hfree hbatch text h

theorem injOn_contentBytes {l : List (Commit Digest)} (hl : ∀ c ∈ l, c.Created)
    (hids : ∀ c ∈ l, ∀ d ∈ l, c.id = d.id → c = d) :
    Set.InjOn Digest.ofBytes {b | ∃ c ∈ l, c.contentBytes = b} := by
  rintro _ ⟨c, hc, rfl⟩ _ ⟨d, hd, rfl⟩ h
  have hid : c.id = d.id :=
    (Commit.addressed_iff.1 (Commit.created_iff.1 (hl c hc))).trans
      (h.trans (Commit.addressed_iff.1 (Commit.created_iff.1 (hl d hd))).symm)
  rw [hids c hc d hd hid]

/-- Two edits of one key have two ids, and can be pushed again with a timestamp. -/
theorem content_names_commits_replicas :
    let T := {b | ∃ c ∈ [Merge.base, Merge.left, Merge.right], c.contentBytes = b}
    Set.InjOn Digest.ofBytes T ∧
    (∃ c d, ((createFrom 0 Merge.left.parents 2).run (repository .content) empty).1 = .ok c ∧
      ((createFrom 0 Merge.right.parents 2).run (repository .content) empty).1 = .ok d ∧
      c.id ≠ d.id) ∧
    ∀ text, ((Program.push [{ Merge.right with timestamp := some 7 }, Merge.left]).run
      (repository .content) (after .content [.push [Merge.base], .push [Merge.right]] empty)).1 ≠
        .error (.commitConflict text) := by
  intro T
  have hcreated : ∀ c ∈ [Merge.base, Merge.left, Merge.right], c.Created := fun c hc =>
    Commit.created_iff.2 (Merge.addressed_of_mem (List.mem_append_left [Merge.joined] hc))
  have hfree : Set.InjOn Digest.ofBytes T := injOn_contentBytes hcreated (by decide)
  have hmade : ∀ c ∈ [Merge.base, Merge.left, Merge.right], c.Created ∧ c.contentBytes ∈ T :=
    fun c hc => ⟨hcreated c hc, c, hc, rfl⟩
  simp only [List.forall_mem_cons, List.not_mem_nil, false_imp_iff, implies_true, and_true] at hmade
  obtain ⟨hbase, hleft, hright⟩ := hmade
  have hreceived : Commit.Created { Merge.right with timestamp := some 7 } := hright.1
  obtain ⟨-, -, hids, hpush⟩ := content_names_commits hfree
  refine ⟨hfree, ?_, hpush _ _ fun l hl => ?_⟩
  · obtain ⟨c, d, hc, hd, hid⟩ := hids empty empty 0 0 _ _ 2 2 hleft.2 hright.2
    refine ⟨c, d, hc, hd, fun h => ?_⟩
    exact absurd (hid.1 h).2.2 (by decide)
  · simp only [List.cons_append, List.nil_append, List.mem_cons, Request.push.injEq,
      List.not_mem_nil, or_false] at hl
    rcases hl with rfl | rfl | rfl
    · simpa using hbase
    · simpa using hright
    · simpa using ⟨⟨hreceived, hright.2⟩, hleft⟩

end Store

end Confluence
