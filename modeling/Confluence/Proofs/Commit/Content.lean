import Confluence.Commit.IdRule
import Confluence.Proofs.Text.Digest
import Confluence.Proofs.Text.Json

/-!
# What the content of a commit tells

Ids are the digests of texts. A text tells the epoch, the level and the edges it was made from, with
every operation on them, so two commits whose texts are equal differ at most in their ids and
timestamps. Digests of different texts may still be equal: that they are not is an assumption about
the texts at hand, never about all texts.
-/

namespace Confluence

/-! ## Operations -/

theorem Json.ofOption_inj {a b : Option String} (h : ofOption a = ofOption b) : a = b := by
  cases a <;> cases b <;> simp_all [ofOption]

theorem Change.toJson_inj {a b : Change} (h : a.toJson = b.toJson) : a = b := by
  cases a
  cases b
  simp only [toJson, Json.obj.injEq, List.cons.injEq, Prod.mk.injEq, true_and, and_true] at h
  rw [Json.ofOption_inj h.1, Json.ofOption_inj h.2]

/-- Maps whose entries are written by an injective function. -/
theorem OrdMap.eq_of_map_toList {α β γ : Type} [Ord α] {f : α × β → γ} (hf : Function.Injective f)
    {m n : OrdMap α β} (h : m.toList.map f = n.toList.map f) : m = n :=
  eq_of_toList_eq (List.map_injective_iff.2 hf h)

theorem Operation.toJson_inj {a b : Operation} (h : a.toJson = b.toJson) : a = b := by
  cases a
  cases b
  refine congrArg mk (OrdMap.eq_of_map_toList (fun e d hed => ?_) (Json.obj.inj h))
  rw [Prod.mk.injEq] at hed
  exact Prod.ext hed.1 (Change.toJson_inj hed.2)

/-! ## Commits -/

namespace IdRule

/-- Ids do not depend on how many have been given. -/
def Steady {κ : Type} [CommitId κ] (rule : IdRule κ) : Prop :=
  ∀ i j epoch parents level, rule.assign i epoch parents level = rule.assign j epoch parents level

theorem content_steady : content.Steady := fun _ _ _ _ _ => rfl

theorem contentText_inj {epoch epoch' level level' : Nat} {parents parents' : Edges Digest}
    (h : contentText epoch parents level = contentText epoch' parents' level') :
    epoch = epoch' ∧ parents = parents' ∧ level = level' := by
  have hjson := Json.compact_inj (String.ofList_injective h)
  simp only [contentJson, Json.arr.injEq, List.cons.injEq, Json.nat.injEq, Json.obj.injEq,
    and_true] at hjson
  obtain ⟨hepoch, hlevel, hparents⟩ := hjson
  refine ⟨hepoch, OrdMap.eq_of_map_toList (fun e d hed => ?_) hparents, hlevel⟩
  rw [Prod.mk.injEq, Json.arr.injEq] at hed
  have hoperations : Function.Injective (List.map Operation.toJson) :=
    List.map_injective_iff.2 fun _ _ => Operation.toJson_inj
  exact Prod.ext (Digest.toText_inj hed.1) (hoperations hed.2)

end IdRule

namespace Commit

def contentText (c : Commit Digest) : String := IdRule.contentText c.epoch c.parents c.level

def Addressed (c : Commit Digest) : Prop := c.id = Digest.ofText c.contentText

instance (c : Commit Digest) : Decidable c.Addressed := inferInstanceAs (Decidable (_ = _))

/-- Commits of one id have the same content if the digest tells their texts apart. -/
theorem Addressed.sameContent {c d : Commit Digest} (hc : c.Addressed) (hd : d.Addressed)
    (hid : c.id = d.id)
    (hfree : Digest.ofText c.contentText = Digest.ofText d.contentText →
      c.contentText = d.contentText) : c.sameContent d = true := by
  have htext : c.contentText = d.contentText := hfree (hc.symm.trans (hid.trans hd))
  obtain ⟨hepoch, hparents, hlevel⟩ := IdRule.contentText_inj htext
  simp [Commit.sameContent, hid, hepoch, hparents, hlevel]

end Commit

end Confluence
