import Confluence.Proofs.Node.Fetch
import Confluence.Proofs.Repository.Stage

/-!
# What nodes do

At a site the repository may fail at any request, but as long as the ids last a client only leads
from stages to later stages, whatever fails: a push ends on the head, which is then above the pushed
commit, and the operations that it answers with lead there; so do those of a fetch from any ancestor
of the head, and those of a checkout from the empty document.
-/

namespace Confluence

open History Program

variable {κ : Type} [CommitId κ] {α β : Type}

namespace Site

def environment (w : Site κ) (fails : Fault → Prop) : Environment κ (Store κ) :=
  Store.environment w.rule fails fun t => t.serial ≤ w.limit

/-- A program of a client leads from a stage to a later one, with a value that fits it or with a
fault that may happen. -/
def Does (w : Site κ) (fails : Fault → Prop) (own : Commit κ → Prop) (x : Stage κ) (p : Program κ α)
    (Q : α → Stage κ → Prop) : Prop :=
  p.Ensures (w.environment fails)
    (fun a t => ∃ y : Stage κ, y.store = t ∧ Stage.Later w own x y ∧ Q a y)
    (fun e t => fails e ∧ ∃ y : Stage κ, y.store = t ∧ Stage.Later w own x y) x.store

variable {w : Site κ} {fails : Fault → Prop} {own : Commit κ → Prop} {x : Stage κ}
  {p : Program κ α} {Q Q' : α → Stage κ → Prop}

theorem Does.mono (h : w.Does fails own x p Q)
    (hQ : ∀ a y, Stage.Later w own x y → Q a y → Q' a y) : w.Does fails own x p Q' := by
  apply Ensures.mono h
  · intro a t ha
    rcases ha with ⟨y, hy, hxy, ha⟩
    exact ⟨y, hy, hxy, hQ a y hxy ha⟩
  · exact fun _ _ he => he

theorem does_pure {a : α} (hx : x.Valid w) (ha : Q a x) :
    w.Does fails own x (pure a) Q :=
  ensures_pure ⟨x, rfl, hx.later_refl, ha⟩

theorem does_fail {e : Fault} (hx : x.Valid w) (he : fails e) :
    w.Does fails own x (fail e : Program κ α) Q :=
  ⟨he, x, rfl, hx.later_refl⟩

/-- What a client does next may concern a commit that it has built in the meantime. -/
theorem Does.bind {f : α → Program κ β} {R : β → Stage κ → Prop} (h : w.Does fails own x p Q)
    (hf : ∀ a y, Stage.Later w own x y → Q a y → ∃ own',
      (∀ c, own' c → own c ∨ w.rule.Gives x.store.serial y.store.serial c) ∧
        w.Does fails own' y (f a) R) : w.Does fails own x (p >>= f) R := by
  apply Ensures.bind
  apply Ensures.mono h
  · intro a t ha
    rcases ha with ⟨y, rfl, hxy, ha⟩
    rcases hf a y hxy ha with ⟨own', hown, hnext⟩
    apply Ensures.mono hnext
    · intro b t hb
      rcases hb with ⟨z, hz, hyz, hb⟩
      exact ⟨z, hz, hxy.trans hyz hown, hb⟩
    · intro e t he
      rcases he with ⟨he, z, hz, hyz⟩
      exact ⟨he, z, hz, hxy.trans hyz hown⟩
  · exact fun _ _ he => he

/-- The common case: the client's commit stays what it is. -/
theorem Does.next {f : α → Program κ β} {R : β → Stage κ → Prop} (h : w.Does fails own x p Q)
    (hf : ∀ a y, Stage.Later w own x y → Q a y → w.Does fails own y (f a) R) :
    w.Does fails own x (p >>= f) R :=
  h.bind fun a y hxy ha => ⟨own, fun _ hc => .inl hc, hf a y hxy ha⟩

/-- A client may have more commits than it pushes. -/
theorem Does.weaken {own' : Commit κ → Prop} (h : w.Does fails own' x p Q) (hx : x.Valid w)
    (hown : ∀ c, own' c → own c) :
    w.Does fails own x p fun a y => Stage.Later w own' x y ∧ Q a y := by
  have hlater {y : Stage κ} (hxy : Stage.Later w own' x y) : Stage.Later w own x y :=
    hx.later_refl.trans hxy fun c hc => .inl (hown c hc)
  apply Ensures.mono h
  · intro a t ha
    rcases ha with ⟨y, hy, hxy, ha⟩
    exact ⟨y, hy, hlater hxy, hxy, ha⟩
  · intro e t he
    rcases he with ⟨he, y, hy, hxy⟩
    exact ⟨he, y, hy, hlater hxy⟩

theorem Does.attempt (h : w.Does fails own x p Q) :
    w.Does fails own x p.attempt fun o y =>
      (∃ a, o = .ok a ∧ Q a y) ∨ ∃ e, o = .error e ∧ fails e := by
  apply Ensures.attempt
  apply Ensures.mono h
  · intro a t ha
    rcases ha with ⟨y, hy, hxy, ha⟩
    exact ⟨y, hy, hxy, .inl ⟨a, rfl, ha⟩⟩
  · intro e t he
    rcases he with ⟨he, y, hy, hxy⟩
    exact ⟨y, hy, hxy, .inr ⟨e, rfl, he⟩⟩

/-- A program that only reads leaves the stage as it is. -/
theorem does_of_reads {P : α → Prop} (hx : x.Valid w)
    (h : p.Reads (x.store.view fails) P fails) : w.Does fails own x p fun a y => P a ∧ y = x := by
  have hserves : (w.environment fails).Serves (x.store.view fails) (· = x.store) :=
    Store.environment_serves x.store
  apply Ensures.mono (h.ensures hserves rfl)
  · intro a t ha
    rcases ha with ⟨ha, rfl⟩
    exact ⟨x, rfl, hx.later_refl, ha, rfl⟩
  · intro e t he
    rcases he with ⟨he, rfl⟩
    exact ⟨he, x, rfl, hx.later_refl⟩

/-! ## Single requests -/

theorem does_activeHeads (hx : x.Valid w) :
    w.Does fails own x activeHeads fun heads y => heads = .single x.head ∧ y = x := by
  apply ensures_activeHeads
  · exact ⟨x, rfl, hx.later_refl, hx.activeHeads, rfl⟩
  · exact fun e he => ⟨he, x, rfl, hx.later_refl⟩

theorem does_createFrom {epoch level : Nat} {parents : Edges κ} (hx : x.Valid w) :
    w.Does fails own x (createFrom epoch parents level) fun c y =>
      c.parents = parents ∧ c.level = level ∧
        w.rule.Gives x.store.serial y.store.serial c ∧
        y.head = x.head ∧ y.doc = x.doc ∧ y.history = x.history := by
  apply ensures_createFrom
  · intro hallows
    exact ⟨_, rfl, hx.later_count hallows, rfl, rfl, w.rule.gives_next _ _ _ _, rfl, rfl, rfl⟩
  · exact fun e he => ⟨he, x, rfl, hx.later_refl⟩

theorem does_pushCommit {c q : Commit κ} {parent : κ} {edge : List Operation}
    (hx : x.Valid w) (hparents : c.parents = .single parent edge)
    (hq : x.history.get? parent = some q) (hlt : q.level < c.level)
    (hanchors : (x.doc parent).Anchors edge) (hgiven : w.rule.Gives 0 x.store.serial c)
    (hsame : ∀ d, x.history.get? c.id = some d → d = c) :
    w.Does fails (fun d => d = c) x (pushCommit c) fun _ y =>
      y.history.get? c.id = some c ∧ y.head = x.head := by
  rcases hx.exists_later_push hparents hq hlt hanchors hgiven hsame with ⟨y, hy, hxy, hc, hhead⟩
  apply ensures_push hy
  · exact ⟨y, rfl, hxy, hc, hhead⟩
  · exact fun e he => ⟨⟨he, x, rfl, hx.later_refl⟩, he, y, rfl, hxy⟩

/-- A stored commit above the head takes its place. -/
theorem does_replaceHead {m : κ} (hx : x.Valid w)
    (hm : ∃ c, x.history.get? m = some c) (habove : x.history.Ancestor x.head m) :
    w.Does fails own x (updateHeads (.single m) ((OrdSet.single x.head).erase m)) fun _ y =>
      y.head = m ∧ y.doc = x.doc ∧ y.history = x.history := by
  have hadded : ∀ id ∈ OrdSet.single m, ∃ c, x.history.get? id = some c := by
    intro id hid
    rw [OrdSet.mem_single.1 hid]
    exact hm
  apply ensures_updateHeads_of_stored hadded
  · exact fun t hmoved => ⟨_, rfl, hx.later_moved habove hmoved, rfl, rfl, hmoved.commits⟩
  · exact fun e he => ⟨he, x, rfl, hx.later_refl⟩

/-! ## Merging -/

/-- Stored heads are merged into a stored commit above all of them; one head is its own merge. -/
theorem does_merge {heads : OrdSet κ} (hx : x.Valid w) (hne : ∃ id, id ∈ heads)
    (hheads : ∀ id ∈ heads, ∃ c, x.history.get? id = some c) :
    w.Does fails own x (Merge.merge heads) fun m y =>
      y.head = x.head ∧ (∃ c, y.history.get? m = some c) ∧
        ∀ id ∈ heads, y.history.Ancestor id m := by
  by_cases hsize : heads.size ≤ 1
  · rcases hne with ⟨id, hid⟩
    rw [OrdSet.single_of_size_le_one hsize hid, Merge.merge_single]
    apply does_pure hx
    refine ⟨rfl, hheads id hid, ?_⟩
    intro i hi
    rw [OrdSet.mem_single.1 hi]
    exact .refl id
  · have hcommon : ∃ a, ∀ id ∈ heads, x.history.Ancestor a id := by
      refine ⟨w.root, ?_⟩
      intro id hid
      rcases hheads id hid with ⟨c, hc⟩
      exact hx.rooted id c hc
    have hmerge : (Merge.merge heads).Ensures (w.environment fails)
        (fun id t => ∃ m doc, id = m.id ∧ Store.Merged w.rule x.store x.doc heads m doc t)
        (fun e t => fails e ∧ (t = x.store ∨
          t = { x.store with serial := x.store.serial + 1 } ∨
            ∃ m doc, Store.Merged w.rule x.store x.doc heads m doc t)) x.store :=
      Merge.ensures_merge hx.sound (by omega) hheads hcommon (fun h => hx.fits h heads)
        (fun m doc t hm => ⟨m, doc, rfl, hm⟩) fun e t he ht => ⟨he, ht⟩
    apply Ensures.mono (Ensures.within hmerge hx.limit)
    · intro id t h
      rcases h with ⟨⟨m, doc, rfl, hm⟩, hlimit⟩
      have hparent : ∀ id ∈ heads, IsParent t.commits id m.id := by
        intro id hid
        exact (isParent_iff hm.stored).2 ((hm.isMerge.parents id).2 hid)
      exact ⟨⟨t, doc, x.head⟩, rfl, hx.later_merged hne hheads hm hlimit, rfl, ⟨m, hm.stored⟩,
        fun id hid => (hparent id hid).ancestor⟩
    · intro e t h
      rcases h with ⟨⟨he, rfl | rfl | ⟨m, doc, hm⟩⟩, hlimit⟩
      · exact ⟨he, x, rfl, hx.later_refl⟩
      · exact ⟨he, _, rfl, hx.later_count hlimit⟩
      · exact ⟨he, ⟨t, doc, x.head⟩, rfl, hx.later_merged hne hheads hm hlimit⟩

theorem does_withoutAncestors {heads : OrdSet κ} (hx : x.Valid w)
    (hheads : ∀ id ∈ heads, ∃ c, x.history.get? id = some c) :
    w.Does fails own x (Tips.withoutAncestors heads) fun tips y =>
      (∀ id ∈ tips, id ∈ heads) ∧ (∀ id ∈ heads, ∃ t ∈ tips, x.history.Ancestor id t) ∧
        y = x := by
  have hreads : (Tips.withoutAncestors heads).Reads (x.store.view fails)
      (fun tips => (∀ id ∈ tips, id ∈ heads) ∧ ∀ id ∈ heads, ∃ t ∈ tips, x.history.Ancestor id t)
      fails := by
    apply Tips.reads_withoutAncestors hx.sound.toGraded hheads
    · intro tips htips
      constructor
      · exact fun id hid => ((htips id).1 hid).1
      · intro id hid
        rcases hx.sound.toGraded.exists_tip hheads hid with ⟨t, ht, ha⟩
        exact ⟨t, (htips t).2 ht, ha⟩
    · exact fun _ he => he
  apply (does_of_reads hx hreads).mono
  intro tips y _ h
  exact ⟨h.1.1, h.1.2, h.2⟩

theorem does_mergeInto {heads : OrdSet κ} {f : κ → Program κ β} {R : β → Stage κ → Prop}
    (hx : x.Valid w) (hhead : x.head ∈ heads)
    (hheads : ∀ id ∈ heads, ∃ c, x.history.get? id = some c)
    (hf : ∀ y, Stage.Later w own x y →
      (∀ id ∈ heads, y.history.Ancestor id y.head) → w.Does fails own y (f y.head) R) :
    w.Does fails own x (do
      let tips ← Tips.withoutAncestors heads
      let merged ← Merge.merge tips
      updateHeads (.single merged) ((OrdSet.single x.head).erase merged)
      f merged) R := by
  apply (does_withoutAncestors hx hheads).next
  intro tips y hxy htips
  rcases htips with ⟨hsub, habove, rfl⟩
  have hne : ∃ id, id ∈ tips := by
    rcases habove y.head hhead with ⟨t, ht, -⟩
    exact ⟨t, ht⟩
  apply (does_merge hx hne fun id hid => hheads id (hsub id hid)).next
  intro m z hyz hm
  rcases hm with ⟨hhead', hstored, hparents⟩
  have hall : ∀ id ∈ heads, z.history.Ancestor id m := by
    intro id hid
    rcases habove id hid with ⟨t, ht, ha⟩
    exact (hyz.history.ancestor ha).trans (hparents t ht)
  have hrises : z.history.Ancestor z.head m := by
    rw [hhead']
    exact hall y.head hhead
  rw [← hhead']
  apply (does_replaceHead hyz.toValid hstored hrises).next
  intro _ u hzu hu
  rcases hu with ⟨rfl, -, hhistory⟩
  apply hf u (hxy.trans (hyz.trans hzu fun _ hc => .inl hc) fun _ hc => .inl hc)
  intro id hid
  rw [hhistory]
  exact hall id hid

/-! ## Nodes -/

structure Arrives (d : Document) (f : Fetched κ) (y : Stage κ) : Prop where
  commit : f.commit = y.head
  level : ∃ c, y.history.get? y.head = some c ∧ f.level = c.level
  leads : Document.Leads d f.diffs (y.doc y.head)

theorem does_fetchFrom {current : κ} (hx : x.Valid w)
    (hcurrent : x.history.Ancestor current x.head) :
    w.Does fails own x (Node.fetchFrom (.single x.head) current) fun f y =>
      Arrives (x.doc current) f x ∧ y = x := by
  apply does_of_reads hx
  have hheads : ∀ id ∈ OrdSet.single x.head, ∃ c, x.history.get? id = some c := by
    intro id hid
    rw [OrdSet.mem_single.1 hid]
    exact hx.stored
  apply Node.reads_fetchFrom hx.sound hheads ⟨x.head, OrdSet.mem_single.2 rfl, hcurrent⟩
  · intro f hf
    have hhead : f.commit = x.head := OrdSet.mem_single.1 hf.mem
    exact ⟨hhead, hhead ▸ hf.level, hhead ▸ hf.leads⟩
  · exact fun _ he => he

theorem does_createCommit {parent : κ} {q : Commit κ} {diffs : List Operation} {level : Nat}
    (hx : x.Valid w) (hq : x.history.get? parent = some q) (hlt : q.level < level) :
    w.Does fails own x (Node.createCommit parent diffs level) fun c y =>
      c.parents = .single parent diffs ∧ c.level = level ∧
        w.rule.Gives x.store.serial y.store.serial c ∧
        y.head = x.head ∧ y.doc = x.doc ∧ y.history = x.history := by
  have hload : (loadCommit parent).Reads (x.store.view fails) (fun c => c = q) fails :=
    reads_loadCommit hq rfl fun _ he => he
  apply (does_of_reads hx hload).next
  intro c y _ h
  rcases h with ⟨rfl, rfl⟩
  rw [if_neg (Nat.not_le.2 hlt)]
  exact does_createFrom hx

/-- A push ends on a head above the pushed commit. -/
theorem does_push {c q : Commit κ} {parent : κ} {edge : List Operation}
    (hx : x.Valid w) (hparents : c.parents = .single parent edge)
    (hq : x.history.get? parent = some q) (hlt : q.level < c.level)
    (hanchors : (x.doc parent).Anchors edge) (hgiven : w.rule.Gives 0 x.store.serial c)
    (hsame : ∀ d, x.history.get? c.id = some d → d = c) :
    w.Does fails (fun d => d = c) x (Node.push c) fun f y =>
      y.history.Ancestor c.id y.head ∧ Arrives ((x.doc parent).applyAll edge) f y := by
  apply (does_pushCommit hx hparents hq hlt hanchors hgiven hsame).next
  intro _ y hxy hy
  rcases hy with ⟨hc, hhead⟩
  apply (does_activeHeads hxy.toValid).next
  intro heads z _ hz
  rcases hz with ⟨rfl, rfl⟩
  have hheads : ∀ id ∈ (OrdSet.single z.head).insert c.id, ∃ d, z.history.get? id = some d := by
    intro id hid
    rcases OrdSet.mem_insert.1 hid with rfl | hid
    · exact ⟨c, hc⟩
    · rw [OrdSet.mem_single.1 hid]
      exact hxy.stored
  have hhead : z.head ∈ (OrdSet.single z.head).insert c.id :=
    OrdSet.mem_insert.2 (.inr (OrdSet.mem_single.2 rfl))
  apply does_mergeInto hxy.toValid hhead hheads
  intro u hzu habove
  have hcu : u.history.Ancestor c.id u.head := habove c.id (OrdSet.mem_insert.2 (.inl rfl))
  -- whenever the commit was stored, its document is the one to which its edge leads
  have hdoc : u.doc c.id = (x.doc parent).applyAll edge := by
    have hedge : c.parents.get? parent = some edge := by
      rw [hparents, OrdMap.get?_single, if_pos rfl]
    have hleads := hxy.sound.leads hc hedge
    rw [hzu.agrees c.id c hc, ← hleads.applyAll_eq, hxy.agrees parent q hq]
  apply (does_fetchFrom hzu.toValid hcu).mono
  intro f v _ hf
  rcases hf with ⟨harrives, rfl⟩
  rw [hdoc] at harrives
  exact ⟨hcu, harrives⟩

theorem does_fetch {current : κ} (hx : x.Valid w)
    (hcurrent : x.history.Ancestor current x.head) :
    w.Does fails own x (Node.fetch current) fun f y => Arrives (x.doc current) f x ∧ y = x := by
  apply (does_activeHeads hx).next
  intro heads y _ h
  rcases h with ⟨rfl, rfl⟩
  exact does_fetchFrom hx hcurrent

theorem does_mergeHeads (hx : x.Valid w) :
    w.Does fails own x Merge.mergeHeads fun m y => m = y.head := by
  apply (does_activeHeads hx).next
  intro heads y _ h
  rcases h with ⟨rfl, rfl⟩
  apply does_mergeInto hx (OrdSet.mem_single.2 rfl)
  · intro id hid
    rw [OrdSet.mem_single.1 hid]
    exact hx.stored
  · intro z hyz _
    exact does_pure hyz.toValid rfl

theorem does_checkout (hx : x.Valid w) :
    w.Does fails own x Node.checkout fun f y => Arrives ∅ f x ∧ y = x := by
  apply (does_activeHeads hx).next
  intro heads y _ h
  rcases h with ⟨rfl, rfl⟩
  rcases hx.stored with ⟨h, hh⟩
  have hheads : ∀ id ∈ OrdSet.single y.head, ∃ c, y.history.get? id = some c := by
    intro id hid
    rw [OrdSet.mem_single.1 hid]
    exact ⟨h, hh⟩
  have hsnapshot : ∀ id, y.store.snapshots.get? id = if id = w.root then some [] else none := by
    intro id
    rw [hx.snapshots, OrdMap.get?_single]
  -- only the root has a snapshot, so the walk ends there
  have hfind : (Search.find (.single y.head) Accumulator.list Search.hasSnapshot).Reads
      (y.store.view fails) (fun found => found.path.child = y.head ∧
        Document.Leads ∅ (found.value ++ found.path.diffs) (y.doc y.head)) fails := by
    apply Node.reads_findSnapshot hx.sound hheads
    · intro id l hl
      have hl : y.store.snapshots.get? id = some l := hl
      rw [hsnapshot] at hl
      split at hl
      next hroot =>
        cases hl
        rw [hroot, hx.blank]
        exact .nil _
      next => cases hl
    · intro found hfound
      have hchild : found.path.child = y.head := OrdSet.mem_single.1 hfound.mem
      exact ⟨hchild, hchild ▸ hfound.leads⟩
    · intro hnone
      have hreject : y.store.snapshots.get? w.root = none :=
        hnone y.head (OrdSet.mem_single.2 rfl) w.root (hx.rooted _ h hh)
      rw [hsnapshot] at hreject
      simp at hreject
    · exact fun _ he => he
  apply (does_of_reads hx hfind).next
  intro found z _ h
  rcases h with ⟨⟨hchild, hleads⟩, rfl⟩
  rw [hchild]
  apply (does_fetch hx (.refl z.head)).next
  intro f u hu h
  rcases h with ⟨harrives, rfl⟩
  apply does_pure hx
  refine ⟨⟨harrives.commit, harrives.level, ?_⟩, rfl⟩
  exact (hleads.append harrives.leads).squash

end Site

end Confluence
