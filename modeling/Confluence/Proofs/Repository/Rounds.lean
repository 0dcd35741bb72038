import Confluence.Proofs.History.Search
import Confluence.Proofs.Repository.Loops

/-!
# The loops behind searches, tips and common ancestors

All three take up the greatest commit of a frontier and load those of its parents that they have not
met. They note at different moments what they have met: a search and the walk that finds tips when
they find a commit among the parents of another, the walk to a common ancestor when it visits one.
But each of them roams: what it has met grows by the parents that a turn loads. So it comes to no
commit twice, in any history, and ends after as many turns as there are stored commits.
-/

namespace Confluence

open History Program

variable {κ : Type} [CommitId κ]

/-! ## Searching -/

namespace Search

variable {α τ : Type}

def turn (acc : Accumulator α) (exhausted : Fault) (s : State κ α) (o : Except Fault (Option τ)) :
    Program κ (State κ α ⊕ SearchReport κ α τ) :=
  match s.frontier.pop? with
  | none => return .inr ⟨s.visits, .error exhausted⟩
  | some ((c, path), rest) =>
    match o with
    | .error e => return .inr ⟨s.visits ++ [c.id], .error e⟩
    | .ok (some value) => return .inr ⟨s.visits ++ [c.id], .ok ⟨c.id, path, value⟩⟩
    | .ok none => do
      match ← (loadCommits ((fresh s.seen c).map (·.1))).attempt with
      | .error e => return .inr ⟨s.visits ++ [c.id], .error e⟩
      | .ok parents => return .inl (s.advance acc rest c path (fresh s.seen c) parents)

def loop (heads : OrdSet κ) (acc : Accumulator α) (probe : Probe κ τ) :
    Loop κ (State κ α) (Option τ) (SearchReport κ α τ) where
  start := do
    match ← (loadCommits heads.toList).attempt with
    | .error e => return .inr ⟨[], .error e⟩
    | .ok commits => return .inl (start acc heads commits)
  current s := s.frontier.pop?.map (·.1.1.id)
  consult s :=
    match s.frontier.pop? with
    | none => return none
    | some ((c, _), _) => probe (s.visits ++ [c.id]).length c
  turn := turn acc (exhausted heads)

variable {rule : IdRule κ} {s : Store κ} {heads : OrdSet κ} {acc : Accumulator α}
  {probe : Probe κ τ}

theorem needsCommits_loop (heads : OrdSet κ) (acc : Accumulator α) (probe : Probe κ τ) :
    (loop heads acc probe).NeedsCommits := by
  intro s b hc
  refine ⟨.ok ⟨s.visits, .error (exhausted heads)⟩, ?_⟩
  have hpop : s.frontier.pop? = none := Option.map_eq_none_iff.1 hc
  simp only [loop, turn, hpop]
  rfl

theorem bounds_walk (heads : OrdSet κ) (acc : Accumulator α) (probe : Probe κ τ) :
    (loop heads acc probe).Bounds (walk acc probe (exhausted heads)) := by
  constructor
  · intro n s
    cases hpop : s.frontier.pop? with
    | none =>
        simp only [walk, loop, turn, hpop]
        rfl
    | some e =>
        obtain ⟨⟨c, path⟩, rest⟩ := e
        simp only [walk, loop, turn, hpop]
        congr 1
        funext b
        rcases b with e | _ | value
        · rfl
        · change (loadCommits _).attempt >>= _ = _
          rw [bind_assoc]
          congr 1
          funext o
          cases o <;> rfl
        · rfl
  · intro s hc
    have hpop : s.frontier.pop? = none := Option.map_eq_none_iff.1 hc
    simp only [walk, hpop]

theorem onlyReads_loop (heads : OrdSet κ) (acc : Accumulator α) (probe : Probe κ τ) :
    (loop heads acc probe).OnlyReads where
  start h := by
    refine Inspects.bind ((inspects_loadCommits h _).attempt.mono fun o _ => ?_)
    cases o <;> trivial
  turn h p b := by
    simp only [loop, turn]
    split
    next => trivial
    next =>
      rcases b with e | _ | value
      · trivial
      · refine Inspects.bind ((inspects_loadCommits h _).attempt.mono fun o _ => ?_)
        cases o <;> trivial
      · trivial

theorem map_fst_fresh (seen : OrdSet κ) (c : Commit κ) :
    (fresh seen c).map (·.1) = c.parentIds.filter fun p => !seen.contains p := by
  rw [fresh, Commit.parentIds, OrdMap.keys, List.filter_map]
  rfl

def Roams (heads : OrdSet κ) (h : History κ) (visits loads : List κ) (p : State κ α) : Prop :=
  Roaming h heads visits loads (· ∈ p.seen) p.frontier

theorem Roams.advance {h : History κ} {visits loads : List κ} {p : State κ α} {c : Commit κ}
    {path : Path κ α} {rest : Frontier κ (Path κ α)} {parents : List (Commit κ)}
    (hr : Roams heads h visits loads p) (hf : Filed h)
    (hpop : p.frontier.pop? = some ((c, path), rest))
    (hparents : ((fresh p.seen c).map (·.1)).map h.get? = parents.map some) :
    Roams heads h (visits ++ [c.id]) (loads ++ (fresh p.seen c).map (·.1))
      (p.advance acc rest c path (fresh p.seen c) parents) := by
  have hfresh : Roaming.Fresh (· ∈ p.seen) c ((fresh p.seen c).map (·.1)) :=
    map_fst_fresh p.seen c ▸ Roaming.Fresh.unseen p.seen c
  refine Roaming.visit hr hf hpop hfresh (fun x => OrdSet.mem_insertMany)
    (Roaming.get?_add_loaded hr hf hpop fun y hy => ?_)
  obtain ⟨e, he, rfl⟩ := List.mem_map.1 hy
  obtain ⟨hedge, hget⟩ := (mem_zip_loaded hparents e).1 he
  have hid : e.1.id = e.2.1 := hf _ _ hget
  rw [hid]
  exact ⟨hget, List.mem_map.2 ⟨e.2, hedge, rfl⟩⟩

theorem keeps_loop (rule : IdRule κ) (heads : OrdSet κ) (acc : Accumulator α)
    (probe : Probe κ τ) : (loop heads acc probe).Keeps rule heads (Roams heads) where
  sparing hr := hr.sparing
  grow hr he := hr.grow he
  start {s} hs := by
    change Loop.Stands _ heads s.commits [] ([] ++ _) _
    exact Loop.stands_attempt_load rule (fun _ => rfl) (fun _ => rfl)
      (fun _ hget => .start hs hget _) fun _ hasked => .start _ hasked
  turn {s visits loads p} b hs hr := by
    cases hpop : p.frontier.pop? with
    | none =>
        simp only [loop, turn, hpop, loads_pure, Option.map_none, Option.toList_none,
          List.append_nil]
        exact hr.sparing
    | some e =>
        obtain ⟨⟨c, path⟩, rest⟩ := e
        have hfresh : Roaming.Fresh (· ∈ p.seen) c ((fresh p.seen c).map (·.1)) :=
          map_fst_fresh p.seen c ▸ Roaming.Fresh.unseen p.seen c
        simp only [loop, turn, hpop, Option.map_some, Option.toList_some]
        rcases b with e | _ | value
        · exact hr.sparing_pop hs hpop hfresh List.nil_prefix
        · exact Loop.stands_attempt_load rule (fun _ => rfl) (fun _ => rfl)
            (fun _ hget => hr.advance hs hpop hget)
            fun _ hasked => hr.sparing_pop hs hpop hfresh hasked
        · exact hr.sparing_pop hs hpop hfresh List.nil_prefix

theorem spares_loop (rule : IdRule κ) (hs : Filed s.commits) (heads : OrdSet κ)
    (acc : Accumulator α) (probe : Probe κ τ) : (loop heads acc probe).Spares rule s heads :=
  (keeps_loop rule heads acc probe).spares (onlyReads_loop heads acc probe) hs

theorem stops_or_overgrows_loop (rule : IdRule κ) (hs : Filed s.commits) (heads : OrdSet κ)
    (acc : Accumulator α) (probe : Probe κ τ) :
    (loop heads acc probe).Stops (Store.repository rule) s ∨
      (loop heads acc probe).Overgrows rule s :=
  (keeps_loop rule heads acc probe).stops_or_overgrows (onlyReads_loop heads acc probe) hs
    (needsCommits_loop heads acc probe) fun hf hr => (hr.length_le hf).1

theorem alike_report (rule : IdRule κ) (s : Store κ) (heads : OrdSet κ) (acc : Accumulator α)
    (probe : Probe κ τ) : Alike (Store.repository rule) s (report heads acc probe)
      ((loop heads acc probe).start >>=
        Sum.elim (walk acc probe (exhausted heads) s.commits.size) pure) := by
  have hstart : (loop heads acc probe).start >>=
      Sum.elim (walk acc probe (exhausted heads) s.commits.size) pure =
      (loadCommits heads.toList).attempt >>= fun o =>
        match o with
        | .error e => return ⟨[], .error e⟩
        | .ok commits =>
          walk acc probe (exhausted heads) s.commits.size (start acc heads commits) := by
    change ((loadCommits heads.toList).attempt >>= _) >>= _ = _
    rw [bind_assoc]
    congr 1
    funext o
    cases o <;> rfl
  rw [hstart, report]
  rcases loadCommits_cases rule s heads.toList with ⟨commits, hrun, -, -⟩ | ⟨e, hrun, -⟩
  · have hprepare : (prepare heads).run (Store.repository rule) s =
        (.ok (commits, s.commits.size), s) := run_bind_ok hrun
    have hloads : (prepare heads).loads (Store.repository rule) s =
        (loadCommits heads.toList).loads (Store.repository rule) s :=
      (loads_bind_ok hrun).trans (List.append_nil _)
    exact ⟨by rw [run_attempt_bind hprepare, run_attempt_bind hrun],
      by rw [loads_attempt_bind hprepare, loads_attempt_bind hrun, hloads]⟩
  · have hprepare : (prepare heads).run (Store.repository rule) s = (.error e, s) :=
      run_bind_error hrun
    have hloads : (prepare heads).loads (Store.repository rule) s =
        (loadCommits heads.toList).loads (Store.repository rule) s := loads_bind_error hrun
    exact ⟨by rw [run_attempt_bind hprepare, run_attempt_bind hrun],
      by rw [loads_attempt_bind hprepare, loads_attempt_bind hrun, hloads]⟩

/-- A probe that only reads leaves the commits as they are. -/
theorem asksQuietly_loop (rule : IdRule κ) (s : Store κ) (heads : OrdSet κ) (acc : Accumulator α)
    (hprobe : ∀ h n c, (probe n c).Inspects h fun _ => True) :
    (loop heads acc probe).AsksQuietly rule s := by
  intro p t ht
  simp only [loop]
  split
  next => exact ht
  next => rw [(hprobe t.commits _ _).run_snd rule, ht]

theorem loadsAlone_loop (rule : IdRule κ) (heads : OrdSet κ) (acc : Accumulator α)
    (hprobe : ∀ n c t, (probe n c).loads (Store.repository rule) t = []) :
    (loop heads acc probe).LoadsAlone (Store.repository rule) := by
  intro p t
  simp only [loop]
  split
  next => rfl
  next => exact hprobe _ _ t

theorem endsAs_report (rule : IdRule κ) (hs : Filed s.commits) (heads : OrdSet κ)
    (acc : Accumulator α) (probe : Probe κ τ) (hprobe : (loop heads acc probe).AsksQuietly rule s) :
    (loop heads acc probe).EndsAs (Store.repository rule) s (report heads acc probe) := by
  refine Loop.EndsAs.congr ?_ (alike_report rule s heads acc probe)
  exact (keeps_loop rule heads acc probe).endsAs (onlyReads_loop heads acc probe) hprobe hs
    (needsCommits_loop heads acc probe) (bounds_walk heads acc probe) s.commits.size
    fun hr => hr.length_le hs

end Search

/-! ## Finding tips -/

namespace Tips

def loop (heads : OrdSet κ) : Loop κ (Nat × State κ) Unit (OrdSet κ) where
  start := do
    if heads.size ≤ 1 then return .inr heads
    let commits ← loadCommits heads.toList
    return .inl (floorOf commits,
      { frontier := Frontier.add ∅ (commits.map fun c => (c, ())), seen := heads, tips := heads })
  current s := s.2.frontier.pop?.map (·.1.1.id)
  consult _ := return ()
  turn s _ :=
    match s.2.frontier.pop? with
    | none => return .inr s.2.tips
    | some ((c, ()), rest) => do
      let parents ← loadCommits (c.parentIds.filter fun id => !s.2.seen.contains id)
      return .inl (s.1, s.2.advance s.1 rest c parents)

variable {s : Store κ}

theorem needsCommits_loop (heads : OrdSet κ) : (loop heads).NeedsCommits := by
  intro s b hc
  refine ⟨.ok s.2.tips, ?_⟩
  have hpop : s.2.frontier.pop? = none := Option.map_eq_none_iff.1 hc
  simp only [loop, hpop]
  rfl

theorem bounds_walk (heads : OrdSet κ) : (loop heads).Bounds fun n s => walk s.1 n s.2 := by
  constructor
  · intro n s
    cases hpop : s.2.frontier.pop? with
    | none =>
        simp only [walk, loop, hpop]
        rfl
    | some e =>
        obtain ⟨⟨c, ⟨⟩⟩, rest⟩ := e
        simp only [walk, loop, hpop]
        change _ = (loadCommits _ >>= _) >>= _
        rw [bind_assoc]
        rfl
  · intro s hc
    have hpop : s.2.frontier.pop? = none := Option.map_eq_none_iff.1 hc
    simp only [walk, hpop]

theorem onlyReads_loop (heads : OrdSet κ) : (loop heads).OnlyReads where
  start h := by
    simp only [loop]
    split
    · trivial
    · exact Inspects.bind ((inspects_loadCommits h _).mono fun _ _ => trivial)
  turn h p b := by
    simp only [loop]
    split
    · trivial
    · exact Inspects.bind ((inspects_loadCommits h _).mono fun _ _ => trivial)

def Roams (heads : OrdSet κ) (h : History κ) (visits loads : List κ) (p : Nat × State κ) : Prop :=
  Roaming h heads visits loads (· ∈ p.2.seen) p.2.frontier

theorem Roams.advance {heads : OrdSet κ} {h : History κ} {visits loads : List κ}
    {p : Nat × State κ} {c : Commit κ} {rest : Frontier κ Unit} {parents : List (Commit κ)}
    (hr : Roams heads h visits loads p) (hf : Filed h)
    (hpop : p.2.frontier.pop? = some ((c, ()), rest))
    (hparents : (c.parentIds.filter fun id => !p.2.seen.contains id).map h.get? =
      parents.map some) :
    Roams heads h (visits ++ [c.id])
      (loads ++ c.parentIds.filter fun id => !p.2.seen.contains id)
      (p.1, p.2.advance p.1 rest c parents) := by
  have hmem := mem_of_map_get? hparents
  refine Roaming.visit hr hf hpop (.unseen p.2.seen c) (fun x => ?_)
    (Roaming.get?_add_loaded hr hf hpop fun y hy => ?_)
  · change x ∈ p.2.seen.insertMany c.parentIds ↔ _
    rw [OrdSet.mem_insertMany, List.mem_filter, Bool.not_eq_true', ← Bool.not_eq_true,
      OrdSet.contains_iff_mem]
    tauto
  · obtain ⟨d, hd, rfl⟩ := List.mem_map.1 hy
    obtain ⟨id, hid, hget⟩ := (hmem d).1 (List.mem_of_mem_filter hd)
    obtain rfl : d.id = id := hf _ _ hget
    exact ⟨hget, hid⟩

theorem keeps_loop (rule : IdRule κ) (heads : OrdSet κ) :
    (loop heads).Keeps rule heads (Roams heads) where
  sparing hr := hr.sparing
  grow hr he := hr.grow he
  start {s} hs := by
    simp only [loop]
    split
    next => exact .start _ List.nil_prefix
    next =>
      change Loop.Stands _ heads s.commits [] ([] ++ _) _
      exact Loop.stands_load rule (fun _ hget => .start hs hget _) fun _ hasked => .start _ hasked
  turn {s visits loads p} b hs hr := by
    cases hpop : p.2.frontier.pop? with
    | none =>
        simp only [loop, hpop, loads_pure, Option.map_none, Option.toList_none, List.append_nil]
        exact hr.sparing
    | some e =>
        obtain ⟨⟨c, ⟨⟩⟩, rest⟩ := e
        simp only [loop, hpop, Option.map_some, Option.toList_some]
        exact Loop.stands_load rule (fun _ hget => hr.advance hs hpop hget)
          fun _ hasked => hr.sparing_pop hs hpop (.unseen p.2.seen c) hasked

theorem alike_withoutAncestors (rule : IdRule κ) (s : Store κ) (heads : OrdSet κ) :
    Alike (Store.repository rule) s (withoutAncestors heads)
      ((loop heads).start >>= Sum.elim (fun p => walk p.1 s.commits.size p.2) pure) := by
  simp only [withoutAncestors, loop]
  split
  next => exact ⟨rfl, rfl⟩
  next =>
    change Alike _ s ((loadCommits heads.toList >>= fun commits =>
      countCommits >>= fun n => pure (commits, n)) >>= _) ((loadCommits heads.toList >>= _) >>= _)
    rw [bind_assoc, bind_assoc]
    exact alike_loadCommits_bind rule s heads.toList fun _ => ⟨rfl, rfl⟩

theorem serves_withoutAncestors (rule : IdRule κ) (hs : Filed s.commits) (heads : OrdSet κ) :
    (loop heads).Serves rule s heads (withoutAncestors heads) := by
  have hkeeps := keeps_loop rule heads
  have hends := hkeeps.endsAs (onlyReads_loop heads) (fun _ _ ht => ht) hs
    (needsCommits_loop heads) (bounds_walk heads) s.commits.size fun hr => hr.length_le hs
  exact (hends.congr (alike_withoutAncestors rule s heads)).serves
    (hkeeps.spares (onlyReads_loop heads) hs) fun _ _ => rfl

end Tips

/-! ## The walk to a common ancestor -/

namespace CommonAncestor

def loop (heads : OrdSet κ) :
    Loop κ (OrdSet κ × Frontier κ (Reach κ)) Unit (CommonAncestor κ) where
  start := do
    let commits ← loadCommits heads.toList
    return .inl (∅, Frontier.add ∅ (commits.map fun c => (c, .single c.id [])))
  current s := s.2.pop?.map (·.1.1.id)
  consult _ := return ()
  turn s _ :=
    match s.2.pop? with
    | none => fail (.notFound ("common ancestor of heads " ++ heads.inMessage))
    | some ((c, reached), rest) =>
      if reached.size = heads.size then return .inr ⟨c.id, reached⟩
      else do
        let visited := s.1.insert c.id
        let f ← spreadAll visited reached c.parents.toList rest
        return .inl (visited, f)

def unmet (visited : OrdSet κ) (f : Frontier κ (Reach κ)) (edges : List (κ × List Operation)) :
    List κ :=
  (edges.map (·.1)).filter fun p => !visited.contains p && (f.get? p).isNone

section

variable {h : History κ} {visited : OrdSet κ} {reached : Reach κ}
  {edges : List (κ × List Operation)} {edge : List Operation} {f g : Frontier κ (Reach κ)}
  {fresh : List κ} {p : κ} {y : Commit κ × Reach κ}

theorem unmet_cons_of_met (hp : visited.contains p = true ∨ ∃ y, f.get? p = some y) :
    unmet visited f ((p, edge) :: edges) = unmet visited f edges := by
  rcases hp with hp | ⟨y, hp⟩
  · simp [unmet, hp]
  · simp [unmet, hp]

theorem unmet_cons (hv : ¬visited.contains p = true) (hp : f.get? p = none) :
    unmet visited f ((p, edge) :: edges) = p :: unmet visited f edges := by
  simp [unmet, hv, hp]

theorem unmet_insert (hp : p ∉ edges.map (·.1)) :
    unmet visited (f.insert p y) edges = unmet visited f edges := by
  refine List.filter_congr fun x hx => ?_
  have hne : x ≠ p := by
    rintro rfl
    exact hp hx
  rw [OrdMap.get?_insert_of_ne _ _ hne]

def Stored (h : History κ) (f : Frontier κ (Reach κ)) : Prop :=
  ∀ x y, f.get? x = some y → h.get? x = some y.1

theorem Stored.insert (hf : Stored h f) (hp : h.get? p = some y.1) : Stored h (f.insert p y) := by
  intro x z hz
  rw [OrdMap.get?_insert] at hz
  split at hz
  next hx =>
    cases hz
    rw [hx, hp]
  next => exact hf x z hz

structure Widened (h : History κ) (f g : Frontier κ (Reach κ)) (fresh : List κ) : Prop where
  met : ∀ x, (∃ y, g.get? x = some y) ↔ (∃ y, f.get? x = some y) ∨ x ∈ fresh
  stored : Stored h g

theorem Widened.of_insert (hg : Widened h (f.insert p y) g fresh) : Widened h f g (p :: fresh) where
  met := fun x => by
    rw [hg.met, OrdMap.get?_insert, List.mem_cons]
    by_cases hx : x = p
    · simp [hx]
    · simp [hx]
  stored := hg.stored

theorem Widened.of_replace {z : Commit κ × Reach κ} (hg : Widened h (f.insert p y) g fresh)
    (hp : f.get? p = some z) : Widened h f g fresh where
  met := fun x => by
    rw [hg.met, OrdMap.get?_insert]
    by_cases hx : x = p
    · simp [hx, hp]
    · simp [hx]
  stored := hg.stored

/-- Where a commit hands on what it knows, it loads the parents that have not been met, in their
order, or up to one that is missing. -/
theorem spreadAll_cases (rule : IdRule κ) (s : Store κ) (hkeys : (edges.map (·.1)).Nodup)
    (hf : Stored s.commits f) :
    (∃ g, (spreadAll visited reached edges f).run (Store.repository rule) s = (.ok g, s) ∧
      (spreadAll visited reached edges f).loads (Store.repository rule) s = unmet visited f edges ∧
      Widened s.commits f g (unmet visited f edges)) ∨
    ∃ e, (spreadAll visited reached edges f).run (Store.repository rule) s = (.error e, s) ∧
      (spreadAll visited reached edges f).loads (Store.repository rule) s <+:
        unmet visited f edges := by
  induction edges generalizing f with
  | nil => exact .inl ⟨f, rfl, rfl, fun x => by simp [unmet], hf⟩
  | cons e edges ih =>
      obtain ⟨p, edge⟩ := e
      rw [List.map_cons, List.nodup_cons] at hkeys
      by_cases hv : visited.contains p = true
      · rw [unmet_cons_of_met (.inl hv), spreadAll, if_pos hv]
        exact ih hkeys.2 hf
      · rw [spreadAll, if_neg hv]
        cases hp : f.get? p with
        | some y =>
            obtain ⟨c, known⟩ := y
            have hc : s.commits.get? p = some c := hf p _ hp
            have hih := ih hkeys.2 (hf.insert (y := (c, spread edge reached known)) hc)
            rw [unmet_insert hkeys.1] at hih
            rw [unmet_cons_of_met (.inr ⟨_, hp⟩)]
            rcases hih with ⟨g, hrun, hloads, hg⟩ | hmissing
            · exact .inl ⟨g, hrun, hloads, hg.of_replace hp⟩
            · exact .inr hmissing
        | none =>
            have hload : (loadCommit p).loads (Store.repository rule) s = [p] := rfl
            rw [unmet_cons hv hp]
            rcases loadCommit_cases rule s p with ⟨c, hc, hrun⟩ | ⟨e, hrun⟩
            · have hih := ih hkeys.2 (hf.insert (y := (c, spread edge reached ∅)) hc)
              rw [unmet_insert hkeys.1] at hih
              rw [run_bind_ok hrun, loads_bind_ok hrun, hload]
              rcases hih with ⟨g, hrun, hloads, hg⟩ | ⟨e, hrun, hloads⟩
              · exact .inl ⟨g, hrun, congrArg (p :: ·) hloads, hg.of_insert⟩
              · exact .inr ⟨e, hrun, (List.prefix_append_right_inj [p]).2 hloads⟩
            · refine .inr ⟨e, run_bind_error hrun, ?_⟩
              rw [loads_bind_error hrun, hload]
              exact ⟨_, rfl⟩

end

theorem needsCommits_loop (heads : OrdSet κ) : (loop heads).NeedsCommits := by
  intro s b hc
  refine ⟨.error (.notFound ("common ancestor of heads " ++ heads.inMessage)), ?_⟩
  have hpop : s.2.pop? = none := Option.map_eq_none_iff.1 hc
  simp only [loop, hpop]
  rfl

theorem bounds_walk (heads : OrdSet κ) : (loop heads).Bounds fun n s => walk heads n s.1 s.2 := by
  constructor
  · intro n s
    cases hpop : s.2.pop? with
    | none =>
        simp only [walk, loop, hpop]
        rfl
    | some e =>
        obtain ⟨⟨c, reached⟩, rest⟩ := e
        simp only [walk, loop, hpop]
        split
        next => rfl
        next =>
          change _ = (spreadAll _ _ _ _ >>= _) >>= _
          rw [bind_assoc]
          rfl
  · intro s hc
    have hpop : s.2.pop? = none := Option.map_eq_none_iff.1 hc
    simp only [walk, hpop]

theorem onlyReads_loop (heads : OrdSet κ) : (loop heads).OnlyReads where
  start h := Inspects.bind ((inspects_loadCommits h _).mono fun _ _ => trivial)
  turn h p b := by
    simp only [loop]
    split
    · trivial
    · split
      · trivial
      · exact Inspects.bind ((inspects_spreadAll h _ _ _ _).mono fun _ _ => trivial)

structure Roams (heads : OrdSet κ) (h : History κ) (visits loads : List κ)
    (p : OrdSet κ × Frontier κ (Reach κ)) : Prop where
  visited : ∀ x, x ∈ p.1 ↔ x ∈ visits
  roaming : Roaming h heads visits loads (fun x => x ∈ p.1 ∨ ∃ y, p.2.get? x = some y) p.2

namespace Roams

variable {heads : OrdSet κ} {h : History κ} {visits loads : List κ}
  {p : OrdSet κ × Frontier κ (Reach κ)} {c : Commit κ} {reached : Reach κ}
  {rest g : Frontier κ (Reach κ)}

theorem start (hf : Filed h) {commits : List (Commit κ)}
    (hcommits : heads.toList.map h.get? = commits.map some) :
    Roams heads h [] heads.toList
      (∅, Frontier.add ∅ (commits.map fun c => (c, .single c.id []))) where
  visited := fun x => by simp [OrdSet.not_mem_empty]
  roaming := by
    refine (Roaming.start hf hcommits _).congr fun x => ⟨fun hx => ?_, ?_⟩
    · have hmem : h.get? x ∈ commits.map some := hcommits ▸ List.mem_map.2 ⟨x, hx, rfl⟩
      obtain ⟨c, -, hc⟩ := List.mem_map.1 hmem
      exact .inr ⟨_, (Frontier.get?_add_loaded hf hcommits _ x _).2 ⟨hx, c, hc.symm, rfl⟩⟩
    · rintro (hx | ⟨y, hy⟩)
      · exact absurd hx (OrdSet.not_mem_empty x)
      · exact ((Frontier.get?_add_loaded hf hcommits _ x y).1 hy).1

theorem fresh (hr : Roams heads h visits loads p) (hf : Filed h)
    (hpop : p.2.pop? = some ((c, reached), rest)) :
    Roaming.Fresh (fun x => x ∈ p.1 ∨ ∃ y, p.2.get? x = some y) c
      (unmet (p.1.insert c.id) rest c.parents.toList) := by
  refine .filter _ c _ fun x hx => ?_
  rw [hr.roaming.course.exists_get?_iff hf hpop]
  simp only [Bool.and_eq_true, Bool.not_eq_true', ← Bool.not_eq_true, OrdSet.contains_iff_mem,
    OrdSet.mem_insert, Option.isNone_iff_eq_none] at hx
  rintro (hvisited | rfl | ⟨y, hy⟩)
  · exact hx.1 (.inr hvisited)
  · exact hx.1 (.inl rfl)
  · cases hx.2.symm.trans hy

theorem visit (hr : Roams heads h visits loads p) (hf : Filed h)
    (hpop : p.2.pop? = some ((c, reached), rest))
    (hg : Widened h rest g (unmet (p.1.insert c.id) rest c.parents.toList)) :
    Roams heads h (visits ++ [c.id])
      (loads ++ unmet (p.1.insert c.id) rest c.parents.toList) (p.1.insert c.id, g) where
  visited := fun x => by
    rw [OrdSet.mem_insert, hr.visited, List.mem_append, List.mem_singleton, or_comm]
  roaming := by
    refine hr.roaming.visit hf hpop (hr.fresh hf hpop) (fun x => ?_) fun x y hy =>
      ⟨hg.stored x y hy, (hg.met x).1 ⟨y, hy⟩⟩
    rw [hg.met, hr.roaming.course.exists_get?_iff hf hpop, OrdSet.mem_insert]
    tauto

end Roams

theorem keeps_loop (rule : IdRule κ) (heads : OrdSet κ) :
    (loop heads).Keeps rule heads (Roams heads) where
  sparing hr := hr.roaming.sparing
  grow hr he := ⟨hr.visited, hr.roaming.grow he⟩
  start {s} hs := by
    change Loop.Stands _ heads s.commits [] ([] ++ _) _
    exact Loop.stands_load rule (fun _ hget => .start hs hget) fun _ hasked => .start _ hasked
  turn {s visits loads p} b hs hr := by
    cases hpop : p.2.pop? with
    | none =>
        simp only [loop, hpop, loads_fail, Option.map_none, Option.toList_none, List.append_nil]
        exact hr.roaming.sparing
    | some e =>
        obtain ⟨⟨c, reached⟩, rest⟩ := e
        have hfresh := hr.fresh hs hpop
        simp only [loop, hpop, Option.map_some, Option.toList_some]
        split
        next => exact hr.roaming.sparing_pop hs hpop hfresh List.nil_prefix
        next =>
          obtain ⟨-, -, hcourse⟩ := hr.roaming.course.pop hs hpop
          rcases spreadAll_cases rule s (OrdMap.nodup_keys c.parents)
            (fun x y hy => hcourse.entry hy) with ⟨g, hrun, hloads, hg⟩ | ⟨e, hrun, hloads⟩
          · rw [run_bind_ok hrun, loads_bind_ok hrun, hloads, loads_pure, List.append_nil]
            exact hr.visit hs hpop hg
          · rw [run_bind_error hrun, loads_bind_error hrun]
            exact hr.roaming.sparing_pop hs hpop hfresh hloads

theorem alike_find (rule : IdRule κ) (s : Store κ) (heads : OrdSet κ) :
    Alike (Store.repository rule) s (loadCommits heads.toList >>= find heads)
      ((loop heads).start >>= Sum.elim (fun p => walk heads s.commits.size p.1 p.2) pure) := by
  change Alike _ s _ ((loadCommits heads.toList >>= _) >>= _)
  rw [bind_assoc]
  exact alike_loadCommits_bind rule s heads.toList fun _ => alike_countCommits rule s _

theorem serves_find {s : Store κ} (rule : IdRule κ) (hs : Filed s.commits) (heads : OrdSet κ) :
    (loop heads).Serves rule s heads (loadCommits heads.toList >>= find heads) := by
  have hkeeps := keeps_loop rule heads
  have hends := hkeeps.endsAs (onlyReads_loop heads) (fun _ _ ht => ht) hs
    (needsCommits_loop heads) (bounds_walk heads) s.commits.size fun hr => hr.roaming.length_le hs
  exact (hends.congr (alike_find rule s heads)).serves
    (hkeeps.spares (onlyReads_loop heads) hs) fun _ _ => rfl

end CommonAncestor

end Confluence
