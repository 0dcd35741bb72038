import Confluence.Proofs.Repository.Rounds

/-!
# Walks end in any history

A window is loaded through a queue instead of a frontier, and a graph is walked without a
repository. With the loops behind these, every walk comes to an end: parents may be missing, levels
may fall from a parent to its child, and commits may be their own ancestors.
-/

namespace Confluence

open History Program

variable {κ : Type} [CommitId κ]

/-! ## Loading a window -/

namespace Window

/-- The state of the loop that loads a window: beside that of the walk the number of commits for
which there is room left. -/
structure State (κ : Type) [CommitId κ] where
  queue : List κ
  seen : OrdSet κ
  graph : Graph κ
  room : Option Nat

def State.visit (p : State κ) (queue : List κ) (c : Commit κ) : State κ where
  queue := queue ++ c.parentIds.filter fun x => !p.seen.contains x
  seen := p.seen.insertMany (c.parentIds.filter fun x => !p.seen.contains x)
  graph := p.graph.insert c
  room := p.room.map (· - 1)

def loop (heads : OrdSet κ) (limit : Option Nat) : Loop κ (State κ) Unit (Graph κ) where
  start := return .inl ⟨heads.toList, heads, .empty, limit⟩
  current p := if p.room = some 0 then none else p.queue.head?
  consult _ := return ()
  turn p _ :=
    match p.room, p.queue with
    | some 0, _ => return .inr p.graph
    | _, [] => return .inr p.graph
    | _, id :: queue => do
      let c ← loadCommit id
      return .inl (p.visit queue c)

def resume (n : Nat) (p : State κ) : Program κ (Graph κ) :=
  walk (match p.room with | none => n | some m => min m n) p.queue p.seen p.graph

variable {heads : OrdSet κ} {limit : Option Nat} {p : State κ} {id : κ}

theorem turn_of_current_none (hc : (loop heads limit).current p = none) :
    (∀ b, (loop heads limit).turn p b = pure (.inr p.graph)) ∧ ∀ n, resume n p = pure p.graph := by
  obtain ⟨queue, seen, graph, room⟩ := p
  rcases room with _ | _ | m
  · cases queue with
    | nil => exact ⟨fun _ => rfl, fun n => by cases n <;> rfl⟩
    | cons id queue => cases hc
  · exact ⟨fun _ => rfl, fun n => by simp [resume, walk]⟩
  · cases queue with
    | nil => exact ⟨fun _ => rfl, fun n => by cases n <;> simp [resume, walk]⟩
    | cons id queue => cases hc

theorem turn_of_current_some (hc : (loop heads limit).current p = some id) :
    ∃ queue, p.queue = id :: queue ∧
      (∀ b, (loop heads limit).turn p b =
        loadCommit id >>= fun c => pure (.inl (p.visit queue c))) ∧
      ∀ n, resume (n + 1) p = loadCommit id >>= fun c => resume n (p.visit queue c) := by
  obtain ⟨queue, seen, graph, room⟩ := p
  rcases room with _ | _ | m
  · cases queue with
    | nil => cases hc
    | cons i queue =>
        cases hc
        exact ⟨queue, rfl, fun _ => rfl, fun _ => rfl⟩
  · cases hc
  · cases queue with
    | nil => cases hc
    | cons i queue =>
        cases hc
        refine ⟨queue, rfl, fun _ => rfl, fun n => ?_⟩
        simp only [resume, Nat.add_min_add_right]
        rfl

theorem needsCommits_loop (heads : OrdSet κ) (limit : Option Nat) :
    (loop heads limit).NeedsCommits :=
  fun p b hc => ⟨.ok p.graph, (turn_of_current_none hc).1 b⟩

theorem bounds_resume (heads : OrdSet κ) (limit : Option Nat) :
    (loop heads limit).Bounds resume := by
  constructor
  · intro n p
    change _ = (loop heads limit).turn p (.ok ()) >>= _
    cases hc : (loop heads limit).current p with
    | none =>
        obtain ⟨hturn, hresume⟩ := turn_of_current_none hc
        rw [hturn, hresume]
        rfl
    | some id =>
        obtain ⟨queue, -, hturn, hresume⟩ := turn_of_current_some hc
        rw [hturn, hresume, bind_assoc]
        rfl
  · intro p hc
    rw [(turn_of_current_none hc).2, (turn_of_current_none hc).2]

theorem onlyReads_loop (heads : OrdSet κ) (limit : Option Nat) :
    (loop heads limit).OnlyReads where
  start h := trivial
  turn h p b := by
    simp only [loop]
    split
    · trivial
    · trivial
    · exact Inspects.bind (inspects_ask trivial fun _ _ => trivial)

/-- What the loop keeps: it has seen what it has taken up and what is in the queue, each once, and
has loaded what it has taken up. -/
structure Roams (heads : OrdSet κ) (h : History κ) (visits loads : List κ) (p : State κ) :
    Prop where
  nodup : (visits ++ p.queue).Nodup
  met : ∀ x ∈ visits ++ p.queue, x ∈ p.seen
  below : ∀ x ∈ p.seen, x ∈ h.below heads
  stored : ∀ x ∈ visits, ∃ c, h.get? x = some c
  loaded : loads = visits

namespace Roams

variable {h g : History κ} {visits loads queue : List κ}

theorem start (h : History κ) (heads : OrdSet κ) (limit : Option Nat) :
    Roams heads h [] [] ⟨heads.toList, heads, .empty, limit⟩ where
  nodup := heads.nodup_toList
  met := fun _ hx => hx
  below := fun x hx => ⟨x, hx, .refl x⟩
  stored := fun _ hx => absurd hx List.not_mem_nil
  loaded := rfl

theorem grow (hr : Roams heads h visits loads p) (he : h.Extends g) :
    Roams heads g visits loads p where
  nodup := hr.nodup
  met := hr.met
  below := fun x hx => he.below (hr.below x hx)
  stored := fun x hx => (hr.stored x hx).imp fun c hc => he x c hc
  loaded := hr.loaded

theorem sparing (hr : Roams heads h visits loads p) : Sparing h heads visits loads := by
  have hvisits : visits.Nodup := hr.nodup.of_append_left
  refine ⟨hvisits, hr.loaded ▸ hvisits, fun x hx => hr.below x (hr.met x ?_)⟩
  exact List.mem_append_left p.queue hx

theorem length_le (hr : Roams heads h visits loads p) : visits.length ≤ h.size := by
  rw [← OrdMap.length_keys]
  have hvisits : visits.Nodup := hr.nodup.of_append_left
  exact (hvisits.subperm fun x hx => OrdMap.mem_keys.2 (hr.stored x hx)).length_le

theorem sparing_cons (hr : Roams heads h visits loads p) (hqueue : p.queue = id :: queue) :
    Sparing h heads (visits ++ [id]) (loads ++ [id]) := by
  have hsub : (visits ++ [id]).Sublist (visits ++ p.queue) := by
    rw [hqueue]
    exact (List.singleton_sublist.2 List.mem_cons_self).append_left visits
  have hvisits : (visits ++ [id]).Nodup := hr.nodup.sublist hsub
  refine ⟨hvisits, hr.loaded ▸ hvisits, fun x hx => hr.below x (hr.met x (hsub.subset hx))⟩

theorem visit (hr : Roams heads h visits loads p) (hqueue : p.queue = id :: queue)
    {c : Commit κ} (hc : h.get? id = some c) :
    Roams heads h (visits ++ [id]) (loads ++ [id]) (p.visit queue c) := by
  have hfresh := Roaming.Fresh.unseen p.seen c
  have happend (l : List κ) : visits ++ [id] ++ (queue ++ l) = visits ++ p.queue ++ l := by
    simp [hqueue]
  constructor
  · rw [State.visit, happend]
    exact hr.nodup.append hfresh.nodup fun x hx hnew => hfresh.unmet x hnew (hr.met x hx)
  · intro x hx
    rw [State.visit, happend] at hx
    exact OrdSet.mem_insertMany.2 ((List.mem_append.1 hx).imp_left (hr.met x))
  · intro x hx
    rcases OrdSet.mem_insertMany.1 hx with hx | hx
    · exact hr.below x hx
    · have hid : id ∈ visits ++ p.queue := by simp [hqueue]
      obtain ⟨head, hhead, ha⟩ := hr.below id (hr.met id hid)
      have hparent : h.IsParent x id := (isParent_iff hc).2 (hfresh.parent x hx)
      exact ⟨head, hhead, hparent.ancestor.trans ha⟩
  · intro x hx
    rcases List.mem_append.1 hx with hx | hx
    · exact hr.stored x hx
    · exact ⟨c, List.mem_singleton.1 hx ▸ hc⟩
  · rw [hr.loaded]

end Roams

theorem keeps_loop (rule : IdRule κ) (heads : OrdSet κ) (limit : Option Nat) :
    (loop heads limit).Keeps rule heads (Roams heads) where
  sparing hr := hr.sparing
  grow hr he := hr.grow he
  start hs := .start _ heads limit
  turn {s visits loads p} b hs hr := by
    cases hc : (loop heads limit).current p with
    | none =>
        rw [(turn_of_current_none hc).1, loads_pure, Option.toList_none, List.append_nil,
          List.append_nil]
        exact hr.sparing
    | some id =>
        obtain ⟨queue, hqueue, hturn, -⟩ := turn_of_current_some hc
        have hload : (loadCommit id).loads (Store.repository rule) s = [id] := rfl
        rw [hturn, Option.toList_some]
        rcases loadCommit_cases rule s id with ⟨c, hget, hrun⟩ | ⟨e, hrun⟩
        · rw [run_bind_ok hrun, loads_bind_ok hrun, hload, loads_pure, List.append_nil]
          exact hr.visit hqueue hget
        · rw [run_bind_error hrun, loads_bind_error hrun, hload]
          exact hr.sparing_cons hqueue

theorem serves_load {s : Store κ} (rule : IdRule κ) (hs : Filed s.commits) (heads : OrdSet κ)
    (limit : Option Nat) : (loop heads limit).Serves rule s heads (load heads limit) := by
  have hkeeps := keeps_loop rule heads limit
  have hends := hkeeps.endsAs (onlyReads_loop heads limit) (fun _ _ ht => ht) hs
    (needsCommits_loop heads limit) (bounds_resume heads limit) (s.commits.size + 1) fun hr =>
      ⟨Nat.le_succ_of_le hr.length_le, fun _ => Nat.lt_succ_of_le hr.length_le⟩
  exact (hends.congr (alike_countCommits rule s _)).serves
    (hkeeps.spares (onlyReads_loop heads limit) hs) fun _ _ => rfl

end Window

/-! ## Walking along links -/

namespace Graph

variable {τ : Type} {g : Graph κ} {links : GraphNode κ → List κ} {id : κ}

def loop (g : Graph κ) (links : GraphNode κ → List κ) (id : κ) :
    Loop κ (List κ × OrdSet κ) Unit (OrdSet κ) where
  start := return .inl ([id], ∅)
  current p := p.1.head?
  consult _ := return ()
  turn p _ :=
    match p.1 with
    | [] => return .inr p.2
    | i :: queue =>
      match g.nodes.get? i with
      | none => return .inl (queue, p.2)
      | some node =>
        let fresh := (links node).filter fun x => !p.2.contains x
        return .inl (queue ++ fresh.filter g.contains, p.2.insertMany fresh)

theorem needsCommits_loop (g : Graph κ) (links : GraphNode κ → List κ) (id : κ) :
    (g.loop links id).NeedsCommits := by
  rintro ⟨queue, seen⟩ b hc
  obtain rfl : queue = [] := List.head?_eq_none_iff.1 hc
  exact ⟨.ok seen, rfl⟩

theorem bounds_reach (g : Graph κ) (links : GraphNode κ → List κ) (id : κ) :
    (g.loop links id).Bounds fun n p => pure (g.reach links n p.1 p.2) := by
  constructor
  · rintro n ⟨queue, seen⟩
    change _ = (g.loop links id).turn (queue, seen) (.ok ()) >>= _
    cases queue with
    | nil => rfl
    | cons i queue =>
        cases hi : g.nodes.get? i with
        | none =>
            simp only [reach, loop, hi]
            rfl
        | some node =>
            simp only [reach, loop, hi]
            rfl
  · rintro ⟨queue, seen⟩ hc
    obtain rfl : queue = [] := List.head?_eq_none_iff.1 hc
    rfl

theorem reaching_of_turns (hlinks : ∀ i node, g.nodes.get? i = some node → (links node).Nodup)
    {repository : Repository κ τ} {t u : τ} {visits loads : List κ}
    {o : Except Fault ((List κ × OrdSet κ) ⊕ OrdSet κ)} {p : List κ × OrdSet κ}
    (h : (g.loop links id).Turns repository t visits loads o u) (ho : o = .ok (.inl p)) :
    g.Reaching links id visits p.1 p.2 := by
  induction h generalizing p with
  | start begun =>
      subst ho
      cases begun
      exact .start g links id
  | @turn visits loads q b o u v w before consulted taken ih =>
      subst ho
      obtain ⟨queue, seen⟩ := q
      have hq := ih rfl
      cases queue with
      | nil => cases taken
      | cons i queue =>
          cases hi : g.nodes.get? i with
          | none =>
              simp only [loop, hi] at taken
              cases taken
              exact hq.skip hi
          | some node =>
              simp only [loop, hi] at taken
              cases taken
              exact hq.visit hi (hlinks i node hi)

theorem endsAs_reachFrom (hlinks : ∀ i node, g.nodes.get? i = some node → (links node).Nodup)
    (id : κ) (repository : Repository κ τ) (t : τ) :
    (g.loop links id).EndsAs repository t (pure (g.reachFrom links id)) := by
  refine (bounds_reach g links id).endsAs (needsCommits_loop g links id) (g.size + 1) ?_
  intro visits loads p u h
  have hle := (reaching_of_turns hlinks h rfl).length_le
  refine ⟨by omega, fun hcurrent => ?_⟩
  obtain ⟨i, hi⟩ := Option.ne_none_iff_exists'.1 hcurrent
  obtain ⟨queue, hqueue⟩ := List.head?_eq_some_iff.1 hi
  rw [hqueue, List.length_cons] at hle
  omega

end Graph

/-! ## All walks -/

/-- In every store that holds its commits under their ids, whatever their parents and levels are,
the walks come to an end. On their way they take up no commit twice and ask for none twice, and what
they take up lies below the heads. A search ends unless its probe stores commits without end. -/
theorem Store.walks_end (rule : IdRule κ) {s : Store κ} (hs : Filed s.commits)
    (heads : OrdSet κ) :
    (∀ {α τ : Type} (acc : Accumulator α) (probe : Search.Probe κ τ),
      (Search.loop heads acc probe).Spares rule s heads ∧
      ((Search.loop heads acc probe).Stops (repository rule) s ∨
        (Search.loop heads acc probe).Overgrows rule s) ∧
      ((Search.loop heads acc probe).AsksQuietly rule s →
        (Search.loop heads acc probe).EndsAs (repository rule) s
            (Search.report heads acc probe) ∧
          ((Search.loop heads acc probe).LoadsAlone (repository rule) →
            (Search.loop heads acc probe).Serves rule s heads
              (Search.report heads acc probe)))) ∧
    (Tips.loop heads).Serves rule s heads (Tips.withoutAncestors heads) ∧
    (CommonAncestor.loop heads).Serves rule s heads
      (loadCommits heads.toList >>= CommonAncestor.find heads) ∧
    (∀ limit, (Window.loop heads limit).Serves rule s heads (Window.load heads limit)) ∧
    ∀ (g : Graph κ) (id : κ),
      (g.loop (fun n => n.commit.parentIds) id).EndsAs (repository rule) s
          (pure (g.ancestors id)) ∧
        (g.loop (fun n => n.children.toList) id).EndsAs (repository rule) s
          (pure (g.descendants id)) := by
  refine ⟨fun acc probe => ?_, ?_, ?_, fun limit => ?_, fun g id => ⟨?_, ?_⟩⟩
  · have hspares := Search.spares_loop rule hs heads acc probe
    refine ⟨hspares, Search.stops_or_overgrows_loop rule hs heads acc probe, fun hprobe => ?_⟩
    have hends := Search.endsAs_report rule hs heads acc probe hprobe
    exact ⟨hends, hends.serves hspares⟩
  · exact Tips.serves_withoutAncestors rule hs heads
  · exact CommonAncestor.serves_find rule hs heads
  · exact Window.serves_load rule hs heads limit
  · exact Graph.endsAs_reachFrom (fun _ node _ => OrdMap.nodup_keys node.commit.parents) id _ s
  · exact Graph.endsAs_reachFrom (fun _ node _ => node.children.nodup_toList) id _ s

/-- A history with a circle that leads up a level, a commit that is its own parent, and a commit
whose parent is missing. -/
def tangled : Store UInt64 where
  commits := .ofList (([
    ⟨1, .single 3 [], 5, 0, none⟩,
    ⟨2, .single 2 [], 3, 0, none⟩,
    ⟨3, .ofList [(1, []), (2, [])], 2, 0, none⟩,
    ⟨4, .ofList [(2, []), (3, [])], 6, 0, none⟩,
    ⟨5, .single 9 [], 1, 0, none⟩] : List (Commit UInt64)).map fun c => (c.id, c))

/-- A search for a snapshot comes to all five commits, until it misses the parent of the last. -/
theorem Store.walks_end_tangled : Filed tangled.commits ∧ ∃ visits loads r u,
    (Search.loop (.ofList [4, 5]) .squashed Search.hasSnapshot).Turns
      (repository (.sequential 1)) tangled visits loads (.ok (.inr r)) u ∧
    r.visits = [4, 2, 3, 1, 5] ∧ Sparing u.commits (.ofList [4, 5]) visits loads ∧
    ((Search.report (.ofList [4, 5]) .squashed Search.hasSnapshot).loads
      (repository (.sequential 1)) tangled).Nodup := by
  have hfiled : Filed tangled.commits := by
    have hall : ∀ e ∈ tangled.commits.toList, e.2.id = e.1 := by decide
    exact fun id c hc => hall (id, c) (OrdMap.get?_eq_some_iff.1 hc)
  have hprobe : (Search.loop (.ofList [4, 5]) .squashed Search.hasSnapshot).AsksQuietly
      (.sequential 1) tangled :=
    Search.asksQuietly_loop _ _ _ _ fun h n c => inspects_ask trivial fun _ _ => trivial
  obtain ⟨hsearch, -⟩ := walks_end (.sequential 1) hfiled (.ofList [4, 5])
  obtain ⟨hspares, -, hends⟩ := hsearch .squashed Search.hasSnapshot
  obtain ⟨⟨visits, loads, o, u, hturns, hrun, -⟩, hreport⟩ := hends hprobe
  have hvisits : ((Search.report (.ofList [4, 5]) .squashed Search.hasSnapshot).run
      (repository (.sequential 1)) tangled).1.map SearchReport.visits = .ok [4, 2, 3, 1, 5] := by
    decide +kernel
  rw [hrun] at hvisits
  obtain ⟨r, rfl, hr⟩ : ∃ r, o = .ok r ∧ r.visits = [4, 2, 3, 1, 5] := by
    cases o with
    | error e => cases hvisits
    | ok r => exact ⟨r, rfl, Except.ok.inj hvisits⟩
  exact ⟨hfiled, visits, loads, r, u, hturns, hr, hspares _ _ _ _ hturns,
    (hreport (Search.loadsAlone_loop _ _ _ fun _ _ _ => rfl)).loaded_once⟩

end Confluence
