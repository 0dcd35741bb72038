import Confluence.History.Tips
import Confluence.Proofs.History.Sweep
import Confluence.Proofs.Repository.Ensures

/-!
# Which heads are tips

The walk behind `withoutAncestors` is a sweep whose floor is the lowest head. Every head that is a
proper ancestor of another one is a parent of a commit above the floor, so it is met and left out;
a head that is left out is a parent of a commit that some head descends from. In a graded history
every head is an ancestor of a tip.
-/

namespace Confluence

variable {κ : Type} [CommitId κ]

namespace History

def IsTip (h : History κ) (heads : OrdSet κ) (x : κ) : Prop :=
  x ∈ heads ∧ ∀ y ∈ heads, ¬h.ProperAncestor x y

theorem exists_level_bound (h : History κ) (l : List κ) :
    ∃ n, ∀ x ∈ l, ∀ c, h.get? x = some c → c.level ≤ n := by
  induction l with
  | nil => exact ⟨0, by simp⟩
  | cons y l ih =>
      obtain ⟨n, hn⟩ := ih
      refine ⟨max n (((h.get? y).map Commit.level).getD 0), fun x hx c hc => ?_⟩
      rcases List.mem_cons.1 hx with rfl | hx
      · rw [hc]
        exact Nat.le_max_right ..
      · exact Nat.le_trans (hn x hx c hc) (Nat.le_max_left ..)

/-- Every head is below a tip. -/
theorem Graded.exists_tip {h : History κ} (hg : h.Graded) {heads : OrdSet κ}
    (hheads : ∀ x ∈ heads, ∃ c, h.get? x = some c) {x : κ} (hx : x ∈ heads) :
    ∃ t, h.IsTip heads t ∧ h.Ancestor x t := by
  obtain ⟨bound, hbound⟩ := exists_level_bound h heads.toList
  -- climb from head to head: levels rise and are bounded
  obtain ⟨c, hc⟩ := hheads x hx
  obtain ⟨k, hk⟩ : ∃ k, k = bound - c.level := ⟨_, rfl⟩
  induction k using Nat.strongRecOn generalizing x c with
  | _ k ih =>
      by_cases hmax : ∀ y ∈ heads, ¬h.ProperAncestor x y
      · exact ⟨x, ⟨hx, hmax⟩, .refl x⟩
      · obtain ⟨y, hy⟩ := not_forall.1 hmax
        obtain ⟨hyh, hxy⟩ : y ∈ heads ∧ h.ProperAncestor x y := by
          simpa using hy
        obtain ⟨d, hd⟩ := hheads y hyh
        have hlt : c.level < d.level := hg.proper_level hxy hc hd
        have hle : d.level ≤ bound := hbound y hyh d hd
        obtain ⟨t, ht, hyt⟩ := ih (bound - d.level) (by omega) hyh d hd rfl
        exact ⟨t, ht, .trans hxy.ancestor hyt⟩

end History

namespace Program

variable {v : View κ} {E : Fault → Prop}

theorem reads_prepare {heads : OrdSet κ} {P : List (Commit κ) × Nat → Prop}
    (hheads : ∀ x ∈ heads, ∃ c, v.commits.get? x = some c)
    (hP : ∀ cs n, heads.toList.map v.commits.get? = cs.map some → v.commits.size ≤ n → P (cs, n))
    (hE : ∀ e, v.fails e → E e) : (Search.prepare heads).Reads v P E := by
  apply Reads.bind
  apply reads_loadCommits hheads _ hE
  intro cs hcs
  apply Reads.bind
  apply reads_countCommits _ hE
  intro n hn
  exact reads_pure (hP cs n hcs hn)

end Program

namespace Tips

open History Program

variable {v : View κ} {floor : Nat} {heads : OrdSet κ} {visited : List κ} {s : State κ}

structure Walking (h : History κ) (floor : Nat) (heads : OrdSet κ) (visited : List κ)
    (s : State κ) : Prop where
  sweep : Sweep h floor heads visited s.frontier
  seen : ∀ {id c}, id ∈ s.seen → h.get? id = some c → floor ≤ c.level →
    id ∈ visited ∨ ∃ e, s.frontier.get? id = some e
  tips : ∀ {x}, x ∈ s.tips ↔ x ∈ heads ∧ ∀ w ∈ visited, ¬h.IsParent x w

namespace Walking

variable {h : History κ}

section

variable {c : Commit κ} {rest : Frontier κ Unit} {parents : List (Commit κ)}

theorem mem_loaded {h : History κ} {seen : OrdSet κ} (hc : h.get? c.id = some c)
    (hparents : (c.parentIds.filter fun id => !seen.contains id).map h.get? = parents.map some)
    (d : Commit κ) :
    d ∈ parents ↔ ∃ id, (h.IsParent id c.id ∧ id ∉ seen) ∧ h.get? id = some d := by
  rw [mem_of_map_get? hparents]
  refine exists_congr fun id => and_congr_left fun _ => ?_
  rw [List.mem_filter, isParent_iff hc, Bool.not_eq_true', ← Bool.not_eq_true,
    OrdSet.contains_iff_mem]

theorem renewed (hw : Walking h floor heads visited s) (hg : h.Graded)
    (hpop : s.frontier.pop? = some ((c, ()), rest))
    (hparents : (c.parentIds.filter fun id => !s.seen.contains id).map h.get? =
      parents.map some) :
    Sweep.Renewed h floor c.id rest (s.advance floor rest c parents).frontier := by
  obtain ⟨-, hc, -, -⟩ := hw.sweep.pop hg hpop
  have hadd (id : κ) := Frontier.get?_add rest
    ((parents.filter fun p => floor ≤ p.level).map fun p => (p, ())) id
  constructor
  · intro id x hx
    rcases hadd id with ⟨y, hy, hid, hx'⟩ | ⟨-, hx'⟩
    · cases hx.symm.trans hx'
      obtain ⟨d, hd, rfl⟩ := List.mem_map.1 hy
      obtain ⟨hd, hle⟩ := List.mem_filter.1 hd
      obtain ⟨i, ⟨hp, -⟩, hi⟩ := (mem_loaded hc hparents d).1 hd
      have hi' : i = id := (hg.filed hi).symm.trans hid
      exact ⟨hi' ▸ hi, .inr ⟨hi' ▸ hp, by simpa using hle⟩⟩
    · have hr : rest.get? id = some x := hx'.symm.trans hx
      exact ⟨hw.sweep.entry (hw.sweep.get?_of_rest hg hpop hr).1, .inl ⟨x, hr⟩⟩
  · intro id y hy
    rcases hadd id with ⟨x, -, -, hx⟩ | ⟨-, hx⟩
    · exact ⟨x, hx⟩
    · exact ⟨y, hx.trans hy⟩
  · intro p d hp hd hle
    rcases hadd p with ⟨x, -, -, hx⟩ | ⟨hne, hx⟩
    · exact ⟨x, hx⟩
    · by_cases hseen : p ∈ s.seen
      · obtain ⟨y, hy⟩ := hw.sweep.exists_rest_of_parent hg hpop hp (hw.seen hseen hd hle)
        exact ⟨y, hx.trans hy⟩
      · have hin : d ∈ parents := (mem_loaded hc hparents d).2 ⟨p, ⟨hp, hseen⟩, hd⟩
        refine absurd (hg.filed hd) (hne (d, ()) (List.mem_map.2 ⟨d, ?_, rfl⟩))
        exact List.mem_filter.2 ⟨hin, by simpa using hle⟩

theorem advance (hw : Walking h floor heads visited s) (hg : h.Graded)
    (hpop : s.frontier.pop? = some ((c, ()), rest))
    (hparents : (c.parentIds.filter fun id => !s.seen.contains id).map h.get? =
      parents.map some) :
    Walking h floor heads (c.id :: visited) (s.advance floor rest c parents) := by
  obtain ⟨-, hc, -, -⟩ := hw.sweep.pop hg hpop
  have hr := hw.renewed hg hpop hparents
  have hpar (p : κ) : h.IsParent p c.id ↔ p ∈ c.parentIds := isParent_iff hc
  refine ⟨hw.sweep.visit hg hpop hr, fun {id d} hid hd hle => ?_, fun {x} => ?_⟩
  · have hid : id ∈ s.seen ∨ id ∈ c.parentIds := OrdSet.mem_insertMany.1 hid
    rcases hid with hid | hid
    · exact hr.met hw.sweep hg hpop (hw.seen hid hd hle)
    · exact .inr (hr.parent ((hpar id).2 hid) hd hle)
  · change x ∈ s.tips.diff (.ofList c.parentIds) ↔ _
    rw [OrdSet.mem_diff, OrdSet.mem_ofList, hw.tips, ← hpar]
    simp only [List.mem_cons, forall_eq_or_imp]
    tauto

end

theorem isTip_iff (hw : Walking h floor heads visited s) (hg : h.Graded)
    (hfloor : ∀ x ∈ heads, ∃ c, h.get? x = some c ∧ floor ≤ c.level)
    (hempty : ∀ id, s.frontier.get? id = none) (x : κ) : x ∈ s.tips ↔ h.IsTip heads x := by
  rw [hw.tips, IsTip]
  refine and_congr_right fun hx => ⟨fun hno y hy hxy => ?_, fun hno w hv hp => ?_⟩
  · obtain ⟨c, hp, hcy⟩ := Relation.TransGen.head'_iff.1 hxy
    obtain ⟨cx, hcx, hle⟩ := hfloor x hx
    obtain ⟨cy, hcy', -⟩ := hfloor y hy
    obtain ⟨cc, hcc⟩ := hg.exists_of_ancestor hcy hcy'
    have hlt : cx.level < cc.level := hg.parent_level hp hcx hcc
    rcases hw.sweep.visited_or_below hg hy hcy hcc (by omega) with hv | ⟨b, e, he, -⟩
    · exact hno c hv hp
    · rw [hempty] at he
      cases he
  · obtain ⟨y, hy, hwy⟩ := hw.sweep.reached (.inl hv)
    exact hno y hy (Relation.TransGen.head' hp hwy)

end Walking

theorem reads_walk {P : OrdSet κ → Prop} {E : Fault → Prop} (hg : v.commits.Graded)
    (hfloor : ∀ x ∈ heads, ∃ c, v.commits.get? x = some c ∧ floor ≤ c.level)
    (hP : ∀ tips, (∀ x, x ∈ tips ↔ v.commits.IsTip heads x) → P tips)
    (hE : ∀ e, v.fails e → E e) {fuel : Nat} (hw : Walking v.commits floor heads visited s)
    (hfuel : v.commits.size ≤ fuel + visited.length) : (walk floor fuel s).Reads v P E := by
  induction fuel generalizing s visited with
  | zero =>
      refine reads_pure (hP _ (hw.isTip_iff hg hfloor fun id => ?_))
      refine Option.eq_none_iff_forall_ne_some.2 fun e he => ?_
      have hlt := hw.sweep.course.length_lt he
      omega
  | succ fuel ih =>
      unfold walk
      split
      next hpop =>
        exact reads_pure (hP _ (hw.isTip_iff hg hfloor (Frontier.pop?_eq_none hpop)))
      next c rest hpop =>
        obtain ⟨-, hc, -, -⟩ := hw.sweep.pop hg hpop
        apply Reads.bind
        apply reads_loadCommits _ _ hE
        · intro id hid
          exact hg.exists_of_isParent ((isParent_iff hc).2 (List.mem_filter.1 hid).1)
        · intro parents hparents
          apply ih (hw.advance hg hpop hparents)
          rw [List.length_cons]
          omega

theorem floorOf_le {cs : List (Commit κ)} {c : Commit κ} (hc : c ∈ cs) :
    floorOf cs ≤ c.level := by
  have hfold : ∀ (l : List (Commit κ)) (n : Nat),
      l.foldl (fun n d => min n d.level) n ≤ n ∧
        ∀ d ∈ l, l.foldl (fun n d => min n d.level) n ≤ d.level := by
    intro l
    induction l with
    | nil => simp
    | cons e l ih =>
        intro n
        obtain ⟨hn, hl⟩ := ih (min n e.level)
        refine ⟨Nat.le_trans hn (Nat.min_le_left ..), fun d hd => ?_⟩
        rcases List.mem_cons.1 hd with rfl | hd
        · exact Nat.le_trans hn (Nat.min_le_right ..)
        · exact hl d hd
  cases cs with
  | nil => cases hc
  | cons e l =>
      rcases List.mem_cons.1 hc with rfl | hc
      · exact (hfold l _).1
      · exact (hfold l _).2 c hc

/-- The tips of stored heads are the heads that are not proper ancestors of other heads. -/
theorem reads_withoutAncestors {P : OrdSet κ → Prop} {E : Fault → Prop} (hg : v.commits.Graded)
    (hheads : ∀ x ∈ heads, ∃ c, v.commits.get? x = some c)
    (hP : ∀ tips, (∀ x, x ∈ tips ↔ v.commits.IsTip heads x) → P tips)
    (hE : ∀ e, v.fails e → E e) : (withoutAncestors heads).Reads v P E := by
  unfold withoutAncestors
  split
  next hsize =>
    refine reads_pure (hP heads fun x => ⟨fun hx => ⟨hx, fun y hy hxy => ?_⟩, fun hx => hx.1⟩)
    rw [OrdSet.single_of_size_le_one hsize hx, OrdSet.mem_single] at hy
    subst hy
    obtain ⟨c, hc⟩ := hheads y hx
    exact Nat.lt_irrefl _ (hg.proper_level hxy hc hc)
  next =>
    apply Reads.bind
    apply reads_prepare hheads _ hE
    intro cs n hcs hn
    have hmem := mem_of_map_get? hcs
    have hfloor : ∀ x ∈ heads, ∃ c, v.commits.get? x = some c ∧ floorOf cs ≤ c.level := by
      intro x hx
      obtain ⟨c, hc⟩ := hheads x hx
      exact ⟨c, hc, floorOf_le ((hmem c).2 ⟨x, hx, hc⟩)⟩
    have hsweep := Sweep.start hg hcs hfloor fun _ => ()
    have hw : Walking v.commits (floorOf cs) heads []
        ⟨Frontier.add ∅ (cs.map fun c => (c, ())), heads, heads⟩ := by
      refine ⟨hsweep, fun hid _ _ => ?_, ?_⟩
      · exact hsweep.head_met hid
      · simp
    exact reads_walk hg hfloor hP hE hw hn

end Tips

end Confluence
