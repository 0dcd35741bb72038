import Confluence.Proofs.Concurrency.Guard
import Confluence.Proofs.History.Merge

/-!
# The operations keep the rules

An operation that merges puts the merge in the place of the heads that it has read. Each of them is
below a tip, and the tips are the parents of the merge, whatever has become of the heads meanwhile.
Of a batch every commit is below one on which no other builds, since levels rise.
-/

namespace Confluence.Guard

open History Program

variable {κ : Type} [CommitId κ] {α β : Type} {rule : IdRule κ} {s t : Store κ} {l : Ledger κ}

theorem note_push (l : Ledger κ) (commits : List (Commit κ)) (a : Except Fault Unit) :
    l.note (.push commits) a = ⟨l.pushed ++ commits.map Commit.id, l.published⟩ := by
  simp [Ledger.note, Request.pushes, Request.publishes]

theorem note_create (l : Ledger κ) (epoch level : Nat) (parents : Edges κ)
    (a : Except Fault (Commit κ)) : l.note (.create epoch parents level) a = l := by
  simp [Ledger.note, Request.pushes, Request.publishes]

theorem note_activeHeads (l : Ledger κ) (a : Except Fault (OrdSet κ)) :
    l.note .activeHeads a = l := by
  simp [Ledger.note, Request.pushes, Request.publishes]

theorem isParent_of_pushed {commits : List (Commit κ)} (hp : s.Pushed commits t)
    (hids : (commits.map Commit.id).Nodup) {c : Commit κ} (hc : c ∈ commits) {x : κ}
    (hx : x ∈ c.parentIds) : IsParent t.commits x c.id := by
  obtain ⟨d, hd, hsame⟩ := hp.exists_sameContent hc hids
  simp only [Commit.sameContent, Bool.and_eq_true, decide_eq_true_eq] at hsame
  rw [isParent_iff hd, Commit.parentIds, hsame.2]
  exact hx

theorem stored_of_pushed {commits : List (Commit κ)} (hp : s.Pushed commits t)
    (hids : (commits.map Commit.id).Nodup) {c : Commit κ} (hc : c ∈ commits) :
    ∃ d, t.commits.get? c.id = some d := by
  obtain ⟨d, hd, -⟩ := hp.exists_sameContent hc hids
  exact ⟨d, hd⟩

theorem Keeps.bind_push {commits : List (Commit κ)} {f : Unit → Program κ β}
    (hids : (commits.map Commit.id).Nodup)
    (hparents : ∀ c ∈ commits, ∀ p ∈ c.parentIds,
      ∃ q, (s.commits.get? p = some q ∨ q ∈ commits ∧ q.id = p) ∧ q.level < c.level)
    (hl : l.published = false)
    (hf : ∀ u t, s.Rely u → u.Rely t → u.Pushed commits t →
      Keeps rule (f ()) t ⟨l.pushed ++ commits.map Commit.id, false⟩) :
    Keeps rule (push commits >>= f) s l := by
  refine Keeps.bind_ask ⟨hl, hids, hparents⟩ fun u t a hu ht ha => ?_
  rw [note_push, hl]
  exact hf u t hu ht (Store.push_eq_ok_iff.1 ha)

theorem Keeps.bind_merge {heads : OrdSet κ} {f : κ → Program κ β} (hs : s.Ready)
    (hheads : ∀ x ∈ heads, ∃ c, s.commits.get? x = some c) (hl : l.published = false)
    (hf : ∀ m t l', s.Rely t → (∃ c, t.commits.get? m = some c) →
      (∀ x ∈ heads, Ancestor t.commits x m) → (∀ x ∈ l'.pushed, x ∈ l.pushed ∨ x = m) →
      Keeps rule (f m) t l') : Keeps rule (Merge.merge heads >>= f) s l := by
  by_cases htwo : 2 ≤ heads.size
  · have hne := OrdSet.exists_mem_of_two_le htwo
    rw [Merge.merge_eq_plan htwo]
    simp only [bind_assoc, pure_bind]
    have hplan : (Merge.plan heads).Reads (s.view Fails) (Merge.Plans s.commits heads)
        fun _ => True :=
      Merge.reads_plan hs.graded hne hheads (fun p hp => hp) (fun _ => trivial)
        (fun _ _ _ _ _ => trivial) fun _ _ => trivial
    refine Keeps.bind_reads hs hplan fun p t hp ht => ?_
    refine Keeps.bind_ask trivial fun u v c hu hv hc => ?_
    rw [note_create]
    have hsv : s.Rely v := (ht.trans hu).trans hv
    obtain ⟨hedges, hlevel⟩ : c.parents = p.edges ∧ c.level = p.level := by
      cases hc
      exact ⟨rfl, rfl⟩
    have hparents := hp.parents_level hheads hedges hlevel
    refine Keeps.bind_push (by simp) (fun d hd x hx => ?_) hl fun w z hw hz hpushed => ?_
    · cases List.mem_singleton.1 hd
      obtain ⟨q, hq, hlt⟩ := hparents x hx
      exact ⟨q, .inl (hsv.history x q hq), hlt⟩
    · have hids : ([c].map Commit.id).Nodup := by simp
      refine hf c.id z _ ((hsv.trans hw).trans hz)
        (stored_of_pushed hpushed hids List.mem_cons_self) (fun x hx => ?_)
        fun x hx => by simpa using hx
      have hxc : x ∈ c.parentIds := by
        rw [Commit.parentIds, OrdMap.mem_keys, hedges, hp.keys]
        exact hx
      exact (isParent_of_pushed hpushed hids List.mem_cons_self hxc).ancestor
  · by_cases hsome : ∃ x, x ∈ heads
    · obtain ⟨x, hx⟩ := hsome
      have hone : heads = .single x := OrdSet.single_of_size_le_one (by omega) hx
      rw [hone, Merge.merge_single, pure_bind]
      refine hf x s l hs.rely (hheads x hx) (fun y hy => ?_) fun y hy => .inl hy
      rw [hone, OrdSet.mem_single] at hy
      exact hy ▸ .refl y
    · obtain ⟨_ | ⟨x, l⟩, hl⟩ := heads
      · trivial
      · exact absurd ⟨x, List.mem_cons_self⟩ hsome

/-- What is left of some members without those below others is merged, and the merge takes the place
of the heads among them. -/
theorem keeps_replace {members heads : OrdSet κ} {f : κ → Program κ β} (hs : s.Ready)
    (hmembers : ∀ x ∈ members, ∃ c, s.commits.get? x = some c)
    (hheads : ∀ x ∈ heads, x ∈ members) (hpushed : ∀ x ∈ l.pushed, x ∈ members)
    (hl : l.published = false)
    (hf : ∀ m t l', t.Ready → (∃ c, t.commits.get? m = some c) → Keeps rule (f m) t l') :
    Keeps rule (do
      let tips ← Tips.withoutAncestors members
      let m ← Merge.merge tips
      updateHeads (.single m) (heads.erase m)
      f m) s l := by
  have htips : (Tips.withoutAncestors members).Reads (s.view Fails)
      (fun tips => ∀ x, x ∈ tips ↔ IsTip s.commits members x) fun _ => True :=
    Tips.reads_withoutAncestors hs.graded hmembers (fun tips h => h) fun _ _ => trivial
  refine Keeps.bind_reads hs htips fun tips t htips ht => ?_
  have hstored : ∀ x ∈ tips, ∃ c, t.commits.get? x = some c := by
    intro x hx
    obtain ⟨c, hc⟩ := hmembers x ((htips x).1 hx).1
    exact ⟨c, ht.history x c hc⟩
  refine Keeps.bind_merge ht.ready hstored hl fun m u l' hu hm habove hl' => ?_
  have hbelow : ∀ x ∈ members, Ancestor u.commits x m := by
    intro x hx
    obtain ⟨y, hy, hxy⟩ := hs.graded.exists_tip hmembers hx
    exact ((ht.trans hu).history.ancestor hxy).trans (habove y ((htips y).2 hy))
  refine Keeps.bind_ask (fun x hx => ⟨m, OrdSet.mem_single.2 rfl, ?_⟩) fun v w _ hv hw _ => ?_
  · rcases hx with hx | hx
    · exact hbelow x (hheads x (OrdSet.mem_erase.1 hx).1)
    · rcases hl' x hx with hx | rfl
      · exact hbelow x (hpushed x hx)
      · exact .refl x
  · obtain ⟨c, hc⟩ := hm
    exact hf m w _ hw.ready ⟨c, (hv.trans hw).history m c hc⟩

theorem keeps_fetchFrom {m : κ} (hs : s.Ready) (hm : ∃ c, s.commits.get? m = some c)
    (current : κ) : Keeps rule (Node.fetchFrom (.single m) current) s l := by
  have hheads : ∀ x ∈ OrdSet.single m, ∃ c, s.commits.get? x = some c := by
    intro x hx
    rw [OrdSet.mem_single.1 hx]
    exact hm
  have hfind : (Search.find (.single m) Accumulator.squashed (Search.isCommit current)).Reads
      (s.view Fails) (fun _ => True) fun _ => True :=
    Search.reads_find hs.graded hheads (Search.judges_isCommit _ current) (fun _ _ => trivial)
      (fun _ => trivial) fun _ _ => trivial
  exact Keeps.bind_reads hs hfind fun found t _ _ => keeps_pure _

/-- A commit takes the place of its parents. -/
theorem keeps_pushAndUpdateHead {c : Commit κ}
    (hparents : ∀ p ∈ c.parentIds, ∃ q, (s.commits.get? p = some q ∨ q ∈ [c] ∧ q.id = p) ∧
      q.level < c.level) : Keeps rule (pushAndUpdateHead c) s {} := by
  have hids : ([c].map Commit.id).Nodup := by simp
  refine Keeps.bind_push hids (fun d hd => ?_) rfl fun u t hu ht hpushed => ?_
  · cases List.mem_singleton.1 hd
    exact hparents
  · refine keeps_ask fun x hx => ⟨c.id, OrdSet.mem_single.2 rfl, ?_⟩
    rcases hx with hx | hx
    · exact (isParent_of_pushed hpushed hids List.mem_cons_self (OrdSet.mem_ofList.1 hx)).ancestor
    · obtain rfl : x = c.id := by simpa using hx
      exact .refl _

/-- Of a stored batch every commit is below one on which none of the others builds. -/
theorem exists_last {commits : List (Commit κ)} (ht : t.Ready) (hpushed : s.Pushed commits t)
    (hids : (commits.map Commit.id).Nodup) {c : Commit κ} (hc : c ∈ commits) :
    ∃ y ∈ (OrdSet.ofList (commits.map Commit.id)).diff
      (.ofList (commits.flatMap Commit.parentIds)), Ancestor t.commits c.id y := by
  have hstored : ∀ x ∈ OrdSet.ofList (commits.map Commit.id), ∃ d, t.commits.get? x = some d := by
    intro x hx
    obtain ⟨d, hd, rfl⟩ := List.mem_map.1 (OrdSet.mem_ofList.1 hx)
    exact stored_of_pushed hpushed hids hd
  have hmem : c.id ∈ OrdSet.ofList (commits.map Commit.id) :=
    OrdSet.mem_ofList.2 (List.mem_map.2 ⟨c, hc, rfl⟩)
  obtain ⟨y, ⟨hy, htip⟩, hcy⟩ := ht.graded.exists_tip hstored hmem
  refine ⟨y, OrdSet.mem_diff.2 ⟨hy, fun hp => ?_⟩, hcy⟩
  obtain ⟨d, hd, hyd⟩ := List.mem_flatMap.1 (OrdSet.mem_ofList.1 hp)
  have hdmem : d.id ∈ OrdSet.ofList (commits.map Commit.id) :=
    OrdSet.mem_ofList.2 (List.mem_map.2 ⟨d, hd, rfl⟩)
  exact htip d.id hdmem (.single (isParent_of_pushed hpushed hids hd hyd))

/-- The last commits of a batch take the place of all its parents. -/
theorem keeps_pushAndUpdateHeads {commits : List (Commit κ)}
    (hids : (commits.map Commit.id).Nodup)
    (hparents : ∀ c ∈ commits, ∀ p ∈ c.parentIds,
      ∃ q, (s.commits.get? p = some q ∨ q ∈ commits ∧ q.id = p) ∧ q.level < c.level) :
    Keeps rule (pushAndUpdateHeads commits) s {} := by
  refine Keeps.bind_push hids hparents rfl fun u t hu ht hpushed => ?_
  refine keeps_ask fun x hx => ?_
  rcases hx with hx | hx
  · obtain ⟨c, hc, hxc⟩ := List.mem_flatMap.1 (OrdSet.mem_ofList.1 hx)
    obtain ⟨y, hy, hcy⟩ := exists_last ht.ready hpushed hids hc
    exact ⟨y, hy, (isParent_of_pushed hpushed hids hc hxc).ancestor.trans hcy⟩
  · obtain ⟨c, hc, rfl⟩ := List.mem_map.1 hx
    exact exists_last ht.ready hpushed hids hc

theorem keeps_program {o : Publication κ} (ho : o.Admissible s) :
    Keeps rule o.program s {} := by
  cases o with
  | push c =>
      have hids : ([c].map Commit.id).Nodup := by simp
      unfold Publication.program Node.push
      simp only [bind_assoc]
      refine Keeps.bind_push hids ho.parents rfl fun u t hu ht hpushed => ?_
      refine Keeps.bind_ask trivial fun v w heads hv hw ha => ?_
      rw [note_activeHeads]
      obtain ⟨rfl, rfl⟩ : v.activeHeads = heads ∧ v = w := by
        cases ha
        exact ⟨rfl, rfl⟩
      obtain ⟨d, hd⟩ := stored_of_pushed hpushed hids List.mem_cons_self
      refine keeps_replace hv.ready (fun x hx => ?_) (fun x hx => OrdSet.mem_insert.2 (.inr hx))
        (fun x hx => ?_) rfl fun m z l' hz hm => ?_
      · rcases OrdSet.mem_insert.1 hx with rfl | hx
        · exact ⟨d, hv.history _ d hd⟩
        · exact hv.ready.heads x (Store.activeHeads_subset hx)
      · exact OrdSet.mem_insert.2 (.inl (by simpa using hx))
      · exact Ensures.bind (keeps_fetchFrom hz hm c.id)
  | mergeHeads =>
      unfold Publication.program Merge.mergeHeads
      simp only [bind_assoc, pure_bind]
      refine Keeps.bind_ask trivial fun v w heads hv hw ha => ?_
      rw [note_activeHeads]
      obtain ⟨rfl, rfl⟩ : v.activeHeads = heads ∧ v = w := by
        cases ha
        exact ⟨rfl, rfl⟩
      refine keeps_replace hv.ready (fun x hx => hv.ready.heads x (Store.activeHeads_subset hx))
        (fun x hx => hx) (fun x hx => by simp at hx) rfl fun m z l' _ _ => keeps_pure _
  | pushAndUpdateHead c => exact keeps_pushAndUpdateHead (ho.parents c List.mem_cons_self)
  | pushAndUpdateHeads commits => exact keeps_pushAndUpdateHeads ho.distinct ho.parents

end Confluence.Guard
