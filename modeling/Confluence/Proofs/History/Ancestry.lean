import Confluence.Commit.Basic
import Confluence.Document.Accumulate
import Confluence.Proofs.Document.Net
import Mathlib.Data.List.Perm.Subperm
import Mathlib.Logic.Relation
import Mathlib.Logic.Function.Basic

/-!
# Ancestry

A history is a map from ids to commits. It is closed if it holds every commit under its own id and
the parents of all its commits, and graded if moreover levels rise along every edge. A commit of a
graded history then lies above all its proper ancestors, so ancestry is an order on the commits.
Where parents may be missing, rising levels still rule out cycles.

A history is sound for an assignment of documents to commits if every edge leads from the document
of the parent to that of the child. The edges along any route then lead from the document at its
lower end to the one at its upper end, and so does what an accumulator keeps of them.
-/

namespace Confluence

abbrev History (κ : Type) [CommitId κ] := OrdMap κ (Commit κ)

namespace History

variable {κ : Type} [CommitId κ] {h g : History κ} {a b c d p : κ}

def IsParent (h : History κ) (p c : κ) : Prop :=
  ∃ commit edge, h.get? c = some commit ∧ commit.parents.get? p = some edge

def Ancestor (h : History κ) : κ → κ → Prop := Relation.ReflTransGen h.IsParent

def ProperAncestor (h : History κ) : κ → κ → Prop := Relation.TransGen h.IsParent

def Filed (h : History κ) : Prop := ∀ id c, h.get? id = some c → c.id = id

/-- Commits are held under their ids, together with their parents, which lie below them. -/
structure Graded (h : History κ) : Prop where
  filed : ∀ {id c}, h.get? id = some c → c.id = id
  parent : ∀ {id c p edge}, h.get? id = some c → c.parents.get? p = some edge →
    ∃ q, h.get? p = some q ∧ q.level < c.level

theorem graded_iff : h.Graded ↔ ∀ e ∈ h.toList, e.2.id = e.1 ∧
    ∀ p ∈ e.2.parents.toList, (h.get? p.1).any fun q => q.level < e.2.level := by
  have hparent {p : κ} {n : Nat} : ((h.get? p).any fun q => q.level < n) = true ↔
      ∃ q, h.get? p = some q ∧ q.level < n := by
    cases h.get? p <;> simp
  constructor
  · intro hg e he
    have hget : h.get? e.1 = some e.2 := OrdMap.get?_eq_some_iff.2 he
    exact ⟨hg.filed hget, fun p hp => hparent.2 (hg.parent hget (OrdMap.get?_eq_some_iff.2 hp))⟩
  · intro hall
    refine ⟨fun {id c} hc => ?_, fun {id c p edge} hc hp => ?_⟩
    · exact (hall (id, c) (OrdMap.get?_eq_some_iff.1 hc)).1
    · exact hparent.1
        ((hall (id, c) (OrdMap.get?_eq_some_iff.1 hc)).2 (p, edge) (OrdMap.get?_eq_some_iff.1 hp))

instance : Decidable h.Graded := decidable_of_iff _ graded_iff.symm

def Extends (h g : History κ) : Prop := ∀ id c, h.get? id = some c → g.get? id = some c

theorem isParent_iff {commit : Commit κ} (hc : h.get? c = some commit) :
    h.IsParent p c ↔ p ∈ commit.parentIds := by
  rw [Commit.parentIds, OrdMap.mem_keys]
  constructor
  · rintro ⟨commit', edge, hc', he⟩
    rw [hc] at hc'
    cases hc'
    exact ⟨edge, he⟩
  · rintro ⟨edge, he⟩
    exact ⟨commit, edge, hc, he⟩

theorem mem_parentIds_single {commit : Commit κ} {edge : List Operation} {x : κ}
    (hc : commit.parents = .single p edge) : x ∈ commit.parentIds ↔ x = p := by
  rw [Commit.parentIds, hc]
  exact List.mem_singleton

theorem Ancestor.refl (a : κ) : h.Ancestor a a := Relation.ReflTransGen.refl

theorem Ancestor.trans (hab : h.Ancestor a b) (hbc : h.Ancestor b c) : h.Ancestor a c :=
  Relation.ReflTransGen.trans hab hbc

theorem IsParent.ancestor (hp : h.IsParent p c) : h.Ancestor p c := .single hp

theorem ProperAncestor.ancestor (ha : h.ProperAncestor a b) : h.Ancestor a b :=
  Relation.TransGen.to_reflTransGen ha

theorem Ancestor.cases_parent (ha : h.Ancestor a c) :
    a = c ∨ ∃ p, h.Ancestor a p ∧ h.IsParent p c := by
  rcases Relation.ReflTransGen.cases_tail ha with rfl | ⟨p, hap, hp⟩
  · exact .inl rfl
  · exact .inr ⟨p, hap, hp⟩

theorem ancestor_iff_eq_or_proper : h.Ancestor a b ↔ a = b ∨ h.ProperAncestor a b := by
  rw [Ancestor, Relation.reflTransGen_iff_eq_or_transGen]
  exact or_congr_left eq_comm

namespace Graded

theorem parent_level (hg : h.Graded) {cp cc : Commit κ} (hp : h.IsParent p c)
    (hcp : h.get? p = some cp) (hcc : h.get? c = some cc) : cp.level < cc.level := by
  obtain ⟨commit, edge, hc, he⟩ := hp
  obtain ⟨q, hq, hlt⟩ := hg.parent hc he
  rw [hcp] at hq
  rw [hcc] at hc
  cases hq
  cases hc
  exact hlt

theorem exists_of_isParent (hg : h.Graded) (hp : h.IsParent p c) : ∃ q, h.get? p = some q := by
  obtain ⟨commit, edge, hc, he⟩ := hp
  obtain ⟨q, hq, -⟩ := hg.parent hc he
  exact ⟨q, hq⟩

/-- The ancestors of a commit are held, and all but itself lie below it. -/
theorem ancestor_level (hg : h.Graded) {cd : Commit κ} (ha : h.Ancestor a d)
    (hd : h.get? d = some cd) : ∃ ca, h.get? a = some ca ∧ (a = d ∨ ca.level < cd.level) := by
  induction ha using Relation.ReflTransGen.head_induction_on with
  | refl => exact ⟨cd, hd, .inl rfl⟩
  | head hp _ ih =>
      obtain ⟨cc, hcc, hle⟩ := ih
      obtain ⟨ca, hca⟩ := hg.exists_of_isParent hp
      have hlt : ca.level < cc.level := hg.parent_level hp hca hcc
      refine ⟨ca, hca, .inr ?_⟩
      rcases hle with rfl | hle
      · rw [hd] at hcc
        cases hcc
        exact hlt
      · exact Nat.lt_trans hlt hle

theorem exists_of_ancestor (hg : h.Graded) {cd : Commit κ} (ha : h.Ancestor a d)
    (hd : h.get? d = some cd) : ∃ ca, h.get? a = some ca := by
  obtain ⟨ca, hca, -⟩ := hg.ancestor_level ha hd
  exact ⟨ca, hca⟩

theorem proper_level (hg : h.Graded) {ca cd : Commit κ} (ha : h.ProperAncestor a d)
    (hca : h.get? a = some ca) (hd : h.get? d = some cd) : ca.level < cd.level := by
  obtain ⟨p, hap, hp⟩ := Relation.TransGen.tail'_iff.1 ha
  obtain ⟨cp, hcp⟩ := hg.exists_of_isParent hp
  have hlt : cp.level < cd.level := hg.parent_level hp hcp hd
  obtain ⟨ca', hca', hle⟩ := hg.ancestor_level hap hcp
  rw [hca] at hca'
  cases hca'
  rcases hle with rfl | hle
  · rw [hca] at hcp
    cases hcp
    exact hlt
  · exact Nat.lt_trans hle hlt

/-- What holds of a commit whenever it holds of all below it holds of every commit. -/
theorem induction_on (hg : h.Graded) {P : κ → Prop}
    (step : ∀ m c, h.get? m = some c → (∀ p, h.ProperAncestor p m → P p) → P m) {m : κ}
    {c : Commit κ} (hm : h.get? m = some c) : P m := by
  obtain ⟨n, hn⟩ : ∃ n, n = c.level := ⟨_, rfl⟩
  induction n using Nat.strongRecOn generalizing m c with
  | _ n ih =>
      refine step m c hm fun p hp => ?_
      obtain ⟨q, hq⟩ := hg.exists_of_ancestor hp.ancestor hm
      exact ih q.level (hn ▸ hg.proper_level hp hq hm) hq rfl

theorem antisymm (hg : h.Graded) {ca : Commit κ} (hca : h.get? a = some ca)
    (hab : h.Ancestor a b) (hba : h.Ancestor b a) : a = b := by
  obtain ⟨cb, hcb, hle⟩ := hg.ancestor_level hba hca
  obtain ⟨ca', hca', hle'⟩ := hg.ancestor_level hab hcb
  rw [hca] at hca'
  cases hca'
  rcases hle' with h | hlt'
  · exact h
  · rcases hle with h | hlt
    · exact h.symm
    · exact absurd (Nat.lt_trans hlt hlt') (Nat.lt_irrefl _)

end Graded

/-- Commits are held under their ids, together with their parents, whatever their levels are. -/
structure Closed (h : History κ) : Prop where
  filed : ∀ {id c}, h.get? id = some c → c.id = id
  parent : ∀ {p c}, h.IsParent p c → ∃ q, h.get? p = some q

theorem closed_iff : h.Closed ↔
    ∀ e ∈ h.toList, e.2.id = e.1 ∧ ∀ p ∈ e.2.parentIds, h.contains p = true := by
  constructor
  · intro hc e he
    have hget : h.get? e.1 = some e.2 := OrdMap.get?_eq_some_iff.2 he
    exact ⟨hc.filed hget, fun p hp => OrdMap.contains_iff.2 (hc.parent ((isParent_iff hget).2 hp))⟩
  · intro hall
    refine ⟨fun {id c} hc => (hall (id, c) (OrdMap.get?_eq_some_iff.1 hc)).1, fun {p c} hp => ?_⟩
    obtain ⟨commit, edge, hc, hp⟩ := hp
    exact OrdMap.contains_iff.1
      ((hall (c, commit) (OrdMap.get?_eq_some_iff.1 hc)).2 p (OrdMap.mem_keys.2 ⟨edge, hp⟩))

instance : Decidable h.Closed := decidable_of_iff _ closed_iff.symm

theorem Graded.closed (hg : h.Graded) : h.Closed := ⟨hg.filed, hg.exists_of_isParent⟩

theorem Closed.exists_of_ancestor (hc : h.Closed) {cd : Commit κ} (ha : h.Ancestor a d)
    (hd : h.get? d = some cd) : ∃ ca, h.get? a = some ca := by
  rcases Relation.ReflTransGen.cases_head ha with rfl | ⟨c, hp, -⟩
  · exact ⟨cd, hd⟩
  · exact hc.parent hp

theorem mem_of_map_get? {ids : List κ} {cs : List (Commit κ)}
    (hcs : ids.map h.get? = cs.map some) (c : Commit κ) :
    c ∈ cs ↔ ∃ id ∈ ids, h.get? id = some c := by
  have hmem : c ∈ cs ↔ some c ∈ cs.map some := by simp
  rw [hmem, ← hcs, List.mem_map]

/-! ## Growing histories -/

theorem Extends.refl (h : History κ) : h.Extends h := fun _ _ hc => hc

theorem Extends.trans {k : History κ} (hg : h.Extends g) (gk : g.Extends k) : h.Extends k :=
  fun id c hc => gk id c (hg id c hc)

theorem Extends.size_le (he : h.Extends g) : h.size ≤ g.size := by
  rw [← OrdMap.length_keys, ← OrdMap.length_keys]
  refine ((OrdMap.nodup_keys h).subperm fun id hid => ?_).length_le
  obtain ⟨c, hc⟩ := OrdMap.mem_keys.1 hid
  exact OrdMap.mem_keys.2 ⟨c, he id c hc⟩

theorem Extends.isParent (he : h.Extends g) (hp : h.IsParent p c) : g.IsParent p c := by
  obtain ⟨commit, edge, hc, hp⟩ := hp
  exact ⟨commit, edge, he c commit hc, hp⟩

theorem Extends.ancestor (he : h.Extends g) (ha : h.Ancestor a d) : g.Ancestor a d :=
  Relation.ReflTransGen.mono (fun _ _ => he.isParent) _ _ ha

/-- A graded history holds all parents of its commits, so a larger one gives them no new
ancestors. -/
theorem Extends.ancestor_iff (he : h.Extends g) (hg : h.Graded) {cd : Commit κ}
    (hd : h.get? d = some cd) : g.Ancestor a d ↔ h.Ancestor a d := by
  refine ⟨fun ha => ?_, he.ancestor⟩
  induction ha using Relation.ReflTransGen.head_induction_on with
  | refl => exact .refl d
  | head hp _ ih =>
      obtain ⟨cc, hcc⟩ := hg.exists_of_ancestor ih hd
      rw [isParent_iff (he _ _ hcc), ← isParent_iff hcc] at hp
      exact Relation.ReflTransGen.head hp ih

theorem extends_insert {commit : Commit κ} (hn : h.get? commit.id = none) :
    h.Extends (h.insert commit.id commit) := by
  intro id c hc
  rw [OrdMap.get?_insert, if_neg, hc]
  rintro rfl
  rw [hn] at hc
  cases hc

theorem Graded.insert (hg : h.Graded) {commit : Commit κ} (hn : h.get? commit.id = none)
    (hp : ∀ p edge, commit.parents.get? p = some edge →
      ∃ q, h.get? p = some q ∧ q.level < commit.level) :
    Graded (h.insert commit.id commit) := by
  have he := extends_insert hn
  constructor
  · intro id c hc
    rw [OrdMap.get?_insert] at hc
    split at hc
    next hid =>
      cases hc
      exact hid.symm
    next => exact hg.filed hc
  · intro id c p edge hc hedge
    rw [OrdMap.get?_insert] at hc
    split at hc
    next =>
      cases hc
      obtain ⟨q, hq, hlt⟩ := hp p edge hedge
      exact ⟨q, he p q hq, hlt⟩
    next =>
      obtain ⟨q, hq, hlt⟩ := hg.parent hc hedge
      exact ⟨q, he p q hq, hlt⟩

/-! ## Rising levels -/

def Rises (h : History κ) : Prop :=
  ∀ p c cp cc, h.IsParent p c → h.get? p = some cp → h.get? c = some cc → cp.level < cc.level

theorem Rises.of_extends (hr : g.Rises) (he : h.Extends g) : h.Rises := by
  intro p c cp cc hp hcp hcc
  exact hr p c cp cc (he.isParent hp) (he p cp hcp) (he c cc hcc)

theorem exists_of_proper (ha : h.ProperAncestor a b) : ∃ cb, h.get? b = some cb := by
  obtain ⟨p, -, commit, edge, hc, -⟩ := Relation.TransGen.tail'_iff.1 ha
  exact ⟨commit, hc⟩

theorem Rises.proper_level (hr : h.Rises) {ca cb : Commit κ} (ha : h.ProperAncestor a b)
    (hca : h.get? a = some ca) (hcb : h.get? b = some cb) : ca.level < cb.level := by
  induction ha generalizing cb with
  | single hp => exact hr _ _ ca cb hp hca hcb
  | tail hab hp ih =>
      obtain ⟨cm, hcm⟩ := exists_of_proper hab
      exact Nat.lt_trans (ih hcm) (hr _ _ cm cb hp hcm hcb)

theorem Rises.acyclic (hr : h.Rises) (a : κ) : ¬h.ProperAncestor a a := by
  intro ha
  obtain ⟨ca, hca⟩ := exists_of_proper ha
  exact Nat.lt_irrefl _ (hr.proper_level ha hca hca)

/-! ## Documents -/

/-- Every edge leads from the document of the parent to the document of the child. -/
structure Sound (h : History κ) (doc : κ → Document) : Prop extends Graded h where
  leads : ∀ {id c p edge}, h.get? id = some c → c.parents.get? p = some edge →
    Document.Leads (doc p) edge (doc id)

theorem sound_iff {doc : κ → Document} : h.Sound doc ↔ h.Graded ∧
    ∀ e ∈ h.toList, ∀ p ∈ e.2.parents.toList, Document.Leads (doc p.1) p.2 (doc e.1) := by
  constructor
  · exact fun hs => ⟨hs.toGraded, fun e he p hp =>
      hs.leads (OrdMap.get?_eq_some_iff.2 he) (OrdMap.get?_eq_some_iff.2 hp)⟩
  · rintro ⟨hg, hall⟩
    exact { hg with
      leads := fun {id c p edge} hc hp => hall (id, c) (OrdMap.get?_eq_some_iff.1 hc) (p, edge)
        (OrdMap.get?_eq_some_iff.1 hp) }

instance (doc : κ → Document) : Decidable (h.Sound doc) := decidable_of_iff _ sound_iff.symm

theorem sound_empty (doc : κ → Document) : Sound (∅ : History κ) doc := by
  refine ⟨⟨?_, ?_⟩, ?_⟩
  all_goals
    intros
    contradiction

/-- Only the documents of held commits count. -/
theorem Sound.congr {doc doc' : κ → Document} (hs : h.Sound doc)
    (hd : ∀ id c, h.get? id = some c → doc' id = doc id) : h.Sound doc' := by
  refine { hs.toGraded with leads := fun {id c p edge} hc he => ?_ }
  obtain ⟨q, hq, -⟩ := hs.parent hc he
  rw [hd id c hc, hd p q hq]
  exact hs.leads hc he

/-- A commit with a new id, all of whose edges lead to one document, keeps a history sound. -/
theorem Sound.insert {doc : κ → Document} (hs : h.Sound doc) {commit : Commit κ} {e : Document}
    (hn : h.get? commit.id = none)
    (hp : ∀ p edge, commit.parents.get? p = some edge →
      (∃ q, h.get? p = some q ∧ q.level < commit.level) ∧ Document.Leads (doc p) edge e) :
    Sound (h.insert commit.id commit) (Function.update doc commit.id e) := by
  have hne {id : κ} {c : Commit κ} (hc : h.get? id = some c) : id ≠ commit.id := by
    rintro rfl
    rw [hn] at hc
    cases hc
  refine { hs.toGraded.insert hn fun p edge he => (hp p edge he).1 with leads := ?_ }
  intro id c p edge hc hedge
  rw [OrdMap.get?_insert] at hc
  split at hc
  next hid =>
    cases hc
    obtain ⟨⟨q, hq, -⟩, hl⟩ := hp p edge hedge
    rw [hid, Function.update_self, Function.update_of_ne (hne hq)]
    exact hl
  next hid =>
    obtain ⟨q, hq, -⟩ := hs.parent hc hedge
    rw [Function.update_of_ne hid, Function.update_of_ne (hne hq)]
    exact hs.leads hc hedge

/-- So does a child whose edge is anchored at its parent's document. -/
theorem Sound.insert_child {doc : κ → Document} (hs : h.Sound doc) (commit : Commit κ)
    {edge : List Operation} {q : Commit κ} (hn : h.get? commit.id = none)
    (hparents : commit.parents = .single p edge) (hq : h.get? p = some q)
    (hlt : q.level < commit.level) (ha : (doc p).Anchors edge) :
    Sound (h.insert commit.id commit)
      (Function.update doc commit.id ((doc p).applyAll edge)) := by
  refine hs.insert hn fun p' edge' he => ?_
  rw [hparents, OrdMap.get?_single] at he
  split at he
  next hp =>
    cases he
    rw [hp]
    exact ⟨⟨q, hq, hlt⟩, .of_anchors ha⟩
  next => cases he

/-- And so does a commit without parents. -/
theorem Sound.insert_root {doc : κ → Document} (hs : h.Sound doc) (commit : Commit κ)
    (d : Document) (hn : h.get? commit.id = none) (hparents : commit.parents = ∅) :
    Sound (h.insert commit.id commit) (Function.update doc commit.id d) := by
  refine hs.insert hn fun p' edge' he => ?_
  rw [hparents] at he
  cases he

theorem sound_single (commit : Commit κ) (hparents : commit.parents = ∅) :
    Sound (.single commit.id commit) fun _ => ∅ :=
  ((sound_empty fun _ => ∅).insert_root commit ∅ rfl hparents).congr fun id c _ => by
    simp [Function.update_apply]

/-! ## Routes -/

/-- The edges of a way up from the first commit to the second one, in order. -/
inductive Route (h : History κ) : κ → κ → List (List Operation) → Prop where
  | nil (a : κ) : Route h a a []
  | cons {p c d : κ} {commit : Commit κ} {edge : List Operation} {edges : List (List Operation)}
      (hc : h.get? c = some commit) (hp : commit.parents.get? p = some edge)
      (rest : Route h c d edges) : Route h p d (edge :: edges)

theorem Route.ancestor {edges : List (List Operation)} (hr : h.Route a d edges) :
    h.Ancestor a d := by
  induction hr with
  | nil a => exact .refl a
  | cons hc hp _ ih => exact Relation.ReflTransGen.head ⟨_, _, hc, hp⟩ ih

end History

namespace Accumulator

def fold {α : Type} (acc : Accumulator α) (edges : List (List Operation)) : α :=
  edges.foldr (fun edge kept => acc.extend kept edge) acc.start

@[simp] theorem fold_cons {α : Type} (acc : Accumulator α) (edge : List Operation)
    (edges : List (List Operation)) :
    acc.fold (edge :: edges) = acc.extend (acc.fold edges) edge := rfl

end Accumulator

namespace History.Sound

variable {κ : Type} [CommitId κ] {h : History κ} {doc : κ → Document} {a d : κ}
  {edges : List (List Operation)}

theorem leads_fold_list (hs : h.Sound doc) (hr : h.Route a d edges) :
    Document.Leads (doc a) (Accumulator.list.fold edges) (doc d) := by
  induction hr with
  | nil a => exact .nil _
  | cons hc hp _ ih => exact (hs.leads hc hp).append ih

theorem leads_fold_squashed (hs : h.Sound doc) (hr : h.Route a d edges) :
    Document.Leads (doc a) (Accumulator.squashed.fold edges) (doc d) := by
  induction hr with
  | nil a => exact .nil _
  | cons hc hp _ ih => exact ((hs.leads hc hp).append ih).squash

end History.Sound

end Confluence
