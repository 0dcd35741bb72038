import Confluence.Proofs.History.Replay
import Confluence.Proofs.Simulation.Run

/-!
# Replicas between calls

Some replicas share a store and are called in any order, one call after the other, while any request
may fail, a push also after it has been stored. Whatever has failed, a replica stands on an ancestor
of the one head, and its document is that of the commit on which it stands with its edits applied,
or that of its pending commit; what it lists as its own is what its calls have returned as created.
A call that fails leaves the replica as it was, even if the store has moved on.
-/

namespace Confluence

open History Program

variable {κ : Type} [CommitId κ]

theorem Stage.Valid.blank_of_parents {w : Site κ} {x : Stage κ} (hx : x.Valid w) {id : κ}
    {c : Commit κ} (hc : x.history.get? id = some c) (hparents : c.parents = ∅) : x.doc id = ∅ := by
  rcases (hx.rooted id c hc).cases_parent with rfl | ⟨p, -, d, edge, hd, hedge⟩
  · exact hx.blank
  · rw [hc] at hd
    cases hd
    rw [hparents] at hedge
    cases hedge

theorem Stage.Valid.replays_iff {w : Site κ} {x : Stage κ} (hx : x.Valid w) {id : κ} {c : Commit κ}
    (hc : x.history.get? id = some c) (d : Document) : x.history.Replays id d ↔ d = x.doc id := by
  rw [hx.sound.replays_iff fun _ _ => hx.blank_of_parents]
  exact and_iff_right ⟨c, hc⟩

namespace Replica

/-! ## Calls -/

inductive Call where
  | edit (key : String) (value : Option String)
  | commit
  | push
  | fetch

inductive Reply (κ : Type) [CommitId κ] where
  | edited (o : Option Operation)
  | committed (id : Option κ)
  | moved (f : Option (Fetched κ))

def created : Except Fault (Reply κ) → List κ
  | .ok (.committed id) => id.toList
  | _ => []

def Call.act (r : Replica κ) : Call → Program κ (Except Fault (Reply κ) × Replica κ)
  | edit key value =>
    match r.edit key value with
    | none => return (.ok (.edited none), r)
    | some (o, r') => return (.ok (.edited (some o)), r')
  | commit => do
    let (o, r') ← r.attemptCommit
    return (o.map .committed, r')
  | push => do
    let (o, r') ← r.attemptPush
    return (o.map .moved, r')
  | fetch => do
    let (o, r') ← r.attemptFetch
    return (o.map .moved, r')

variable {w : Site κ} {x : Stage κ} {r r' : Replica κ} {fails : Fault → Prop}

theorem ensures_reply {α : Type} {env : Environment κ (Store κ)} {s : Store κ}
    {p : Program κ (Except Fault α × Replica κ)} (f : α → Reply κ)
    (h : p.Ensures env (fun a _ => r.Keeps a) (fun _ _ => False) s) :
    (do let (o, r') ← p; return (o.map f, r')).Ensures env
      (fun a _ => r.Keeps a) (fun _ _ => False) s := by
  refine (h.mono (fun a t ha => ?_) fun _ _ he => he).bind
  rcases a with ⟨e | v, r'⟩
  · exact ensures_pure fun _ _ => ha e rfl
  · exact ensures_pure fun e he => by cases he

theorem ensures_act {env : Environment κ (Store κ)} (henv : ∀ q s, env.permits q s)
    (r : Replica κ) (call : Call) (s : Store κ) :
    (call.act r).Ensures env (fun a _ => r.Keeps a) (fun _ _ => False) s := by
  cases call with
  | edit key value =>
      simp only [Call.act]
      split
      next => exact ensures_pure fun e he => by cases he
      next => exact ensures_pure fun e he => by cases he
  | commit => exact ensures_reply _ (ensures_attemptCommit henv r)
  | push => exact ensures_reply _ (ensures_attemptPush henv r)
  | fetch => exact ensures_reply _ (ensures_attemptFetch henv r)

theorem takes_act (r : Replica κ) (call : Call) : (call.act r).Takes 1 := by
  cases call with
  | edit key value =>
      simp only [Call.act]
      split
      next => exact takes_done _ 1
      next => exact takes_done _ 1
  | commit => exact (takes_attemptCommit r).bind fun _ => takes_done _ 0
  | push => exact (takes_attemptPush r).bind fun _ => takes_done _ 0
  | fetch => exact (takes_attemptFetch r).next fun _ => takes_done _ 1

theorem Ends.reply {α : Type} {Q : α → Replica κ → Prop} {a : Except Fault α × Replica κ}
    {f : α → Reply κ} (h : r.Ends fails Q a)
    (hQ : ∀ v, Q v a.2 → a.2.authored = r.authored ++ created (.ok (f v))) :
    a.2.authored = r.authored ++ created (a.1.map f) ∧ ∀ e, a.1.map f = .error e → fails e := by
  rcases a with ⟨o, r'⟩
  rcases h with ⟨v, rfl, hv⟩ | ⟨e, rfl, he, rfl⟩
  · exact ⟨hQ v hv, fun e he => by cases he⟩
  · exact ⟨(List.append_nil _).symm, fun e' he' => by cases he'; exact he⟩

namespace Consistent

/-- Every call leaves a replica consistent, and adds to its list what it returns as created. -/
theorem does_act (hr : r.Consistent w x) (hx : x.Valid w) (call : Call) :
    w.Does fails r.Owns x (call.act r) fun a y => r.Became w x y a.2 ∧
      a.2.authored = r.authored ++ created a.1 ∧ ∀ e, a.1 = .error e → fails e := by
  cases call with
  | edit key value =>
      simp only [Call.act]
      split
      next =>
        exact Site.does_pure hx
          ⟨hr.became_refl, (List.append_nil _).symm, fun e he => by cases he⟩
      next o r' hedit =>
        have hauthored : r'.authored = r.authored := by
          simp only [Replica.edit] at hedit
          split at hedit
          next => cases hedit
          next =>
            cases hedit
            rfl
        exact Site.does_pure hx ⟨hr.became_edit hedit, hauthored.trans (List.append_nil _).symm,
          fun e he => by cases he⟩
  | commit =>
      apply (hr.does_attemptCommit hx).next
      intro a y hxy ha
      exact Site.does_pure hxy.toValid ⟨ha.1, ha.2.reply fun id h => h.2⟩
  | push =>
      apply (hr.does_attemptPush hx).next
      intro a y hxy ha
      exact Site.does_pure hxy.toValid
        ⟨ha.1, ha.2.reply fun f h => h.2.2.trans (List.append_nil _).symm⟩
  | fetch =>
      apply (hr.does_attemptFetch hx).next
      intro a y hxy ha
      exact Site.does_pure hxy.toValid
        ⟨ha.1, ha.2.reply fun f h => h.2.1.trans (List.append_nil _).symm⟩

end Consistent

end Replica

open Replica

/-! ## Teams -/

/-- A replica with what its calls have returned, in order. -/
structure Member (κ : Type) [CommitId κ] where
  replica : Replica κ
  log : List (Except Fault (Reply κ)) := []

structure Team (κ : Type) [CommitId κ] where
  store : Store κ
  members : List (Member κ)

structure Member.Intact (fails : Fault → Prop) (h : History κ) (head : κ) (m : Member κ) :
    Prop where
  cursor : ∃ c, h.get? m.replica.cursor = some c ∧ m.replica.level = c.level
  behind : h.Ancestor m.replica.cursor head
  /-- The commit on which the replica stands has one document, to which the edits lead back. -/
  editing : ∃ d, (∀ e, h.Replays m.replica.cursor e ↔ e = d) ∧ (m.replica.pending = none →
    d.Anchors m.replica.working ∧ m.replica.document = d.applyAll m.replica.working)
  /-- The pending commit has one edge, from the commit on which the replica stands. Its document is
  the one that it has once it is stored, which it may be already. -/
  awaiting : ∀ c, m.replica.pending = some c → m.replica.working = [] ∧
    (∃ edge, c.parents = .single m.replica.cursor edge) ∧
    (∀ d, h.get? c.id = some d → d = c) ∧
    ∀ d, Replays (h.insertIfNew c.id c) c.id d ↔ d = m.replica.document
  authored : m.replica.authored = m.log.flatMap created
  once : m.replica.authored.Nodup
  faults : ∀ e, .error e ∈ m.log → fails e

namespace Team

def start (store : Store κ) (root : κ) (count : Nat) : Team κ where
  store
  members := (List.range count).map fun id => { replica := { id, cursor := root } }

/-- One member is called; what its requests are answered with is left open. -/
inductive Step (rule : IdRule κ) (fails : Fault → Prop) : Team κ → Team κ → Prop where
  | call {s : Team κ} {i : Nat} {m : Member κ} (call : Call) {reply : Except Fault (Reply κ)}
      {r : Replica κ} {t : Store κ} (hm : s.members[i]? = some m)
      (hrun : (call.act m.replica).Runs (Store.environment rule fails fun _ => True) s.store
        (.ok (reply, r)) t) :
      Step rule fails s ⟨t, s.members.set i ⟨r, m.log ++ [reply]⟩⟩

inductive Steps (rule : IdRule κ) (fails : Fault → Prop) (s : Team κ) : Nat → Team κ → Prop where
  | refl : Steps rule fails s 0 s
  | tail {n : Nat} {t u : Team κ} (h : Steps rule fails s n t) (last : Step rule fails t u) :
      Steps rule fails s (n + 1) u

structure Intact (rule : IdRule κ) (fails : Fault → Prop) (s : Team κ) : Prop where
  members : ∃ head, s.store.heads = .single head ∧
    ∀ m ∈ s.members, m.Intact fails s.store.commits head
  returns : ∀ m ∈ s.members, ∀ (call : Call) o (t : Store κ),
    (call.act m.replica).Runs (Store.environment rule fails fun _ => True) s.store o t →
      ∃ reply r, o = .ok (reply, r)
  unchanged : ∀ m ∈ s.members, ∀ (call : Call) (e : Fault) (r : Replica κ) (t : Store κ),
    (call.act m.replica).Runs (Store.environment rule fails fun _ => True) s.store
      (.ok (.error e, r)) t → r = m.replica

/-! ## The invariant -/

structure Sound (w : Site κ) (fails : Fault → Prop) (s : Team κ) : Prop where
  stage : ∃ x : Stage κ, x.store = s.store ∧ x.Valid w ∧
    Together w x (s.members.map Member.replica)
  authored : ∀ m ∈ s.members, m.replica.authored = m.log.flatMap created
  faults : ∀ m ∈ s.members, ∀ e, .error e ∈ m.log → fails e

variable {w : Site κ} {rule : IdRule κ} {fails : Fault → Prop} {s t : Team κ} {n : Nat}

theorem Step.serial_le (h : Step rule fails s t) : s.store.serial ≤ t.store.serial ∧
    t.store.serial ≤ s.store.serial + 1 := by
  cases h with
  | call call hm hrun =>
      exact ⟨Store.serial_le_of_runs hrun, (takes_act _ call).serial_le hrun⟩

theorem Steps.serial_le (h : Steps rule fails s n t) :
    t.store.serial ≤ s.store.serial + n := by
  induction h with
  | refl => exact Nat.le_refl _
  | tail _ last ih =>
      have hlast := last.serial_le.2
      omega

theorem sound_start {store : Store κ} {epoch : Nat} (h : store.Started w.rule epoch w.root)
    (hlimit : 1 ≤ w.limit) (count : Nat) : (start store w.root count).Sound w fails := by
  have hmember {m : Member κ} (hm : m ∈ (start store w.root count).members) :
      ∃ id, m = { replica := { id, cursor := w.root } } := by
    rcases List.mem_map.1 hm with ⟨id, -, rfl⟩
    exact ⟨id, rfl⟩
  constructor
  · refine ⟨_, rfl, Stage.valid_of_started h hlimit, ?_⟩
    rw [start, List.map_map]
    exact together_of_started h count
  · intro m hm
    rcases hmember hm with ⟨id, rfl⟩
    rfl
  · intro m hm e he
    rcases hmember hm with ⟨id, rfl⟩
    cases he

/-- A call keeps a team sound, whatever fails, as long as the ids last. -/
theorem Sound.step (hs : s.Sound w fails) (h : Step w.rule fails s t)
    (hlimit : t.store.serial ≤ w.limit) : t.Sound w fails := by
  rcases hs.stage with ⟨x, hstore, hx, htogether⟩
  cases h with
  | @call i m call reply r u hm hrun =>
      have hmem : m ∈ s.members := List.mem_of_getElem? hm
      have hreplica : m.replica ∈ s.members.map Member.replica := List.mem_map_of_mem hmem
      have hdoes : w.Does fails _ x (call.act m.replica) _ :=
        (htogether.consistent m.replica hreplica).does_act hx call
      rw [← hstore] at hrun
      rcases Ensures.of_runs hdoes (Store.runs_within_limit hrun hlimit) with
        ⟨y, hy, hxy, hbecame, hauthored, hfault⟩
      constructor
      · refine ⟨y, hy, hxy.toValid, htogether.became hreplica hxy hbecame ?_⟩
        intro a ha
        rw [List.map_set] at ha
        exact (List.mem_or_eq_of_mem_set ha).symm
      · intro a ha
        rcases List.mem_or_eq_of_mem_set ha with ha | rfl
        · exact hs.authored a ha
        · rw [hauthored, hs.authored m hmem, List.flatMap_append, List.flatMap_singleton]
      · intro a ha e he
        rcases List.mem_or_eq_of_mem_set ha with ha | rfl
        · exact hs.faults a ha e he
        · rcases List.mem_append.1 he with he | he
          · exact hs.faults m hmem e he
          · exact hfault e (List.mem_singleton.1 he).symm

theorem Sound.steps (hs : s.Sound w fails) (h : Steps w.rule fails s n t)
    (hlimit : t.store.serial ≤ w.limit) : t.Sound w fails := by
  induction h with
  | refl => exact hs
  | tail _ last ih => exact (ih (Nat.le_trans last.serial_le.1 hlimit)).step last hlimit

/-! ## What follows from it -/

/-- A pending commit has the document of its replica as soon as it is stored. -/
theorem replays_pending {x : Stage κ} {r : Replica κ} {c : Commit κ} (hx : x.Valid w)
    (hr : r.Consistent w x) (hc : r.pending = some c) (d : Document) :
    Replays (x.history.insertIfNew c.id c) c.id d ↔ d = r.document := by
  have ha := hr.awaiting c hc
  rcases ha.edge with ⟨edge, hparents, hleads⟩
  rcases hr.cursor with ⟨q, hq, hlevel⟩
  have hlt : q.level < c.level := by
    rw [ha.level]
    omega
  rcases hx.exists_later_push hparents hq hlt hleads.anchors ha.given ha.same with
    ⟨y, hy, hxy, hstored, -⟩
  rw [← (Store.push_eq_ok_iff.1 hy).commits_singleton]
  have hedge : c.parents.get? r.cursor = some edge := by
    rw [hparents, OrdMap.get?_single, if_pos rfl]
  have hdoc : y.doc c.id = r.document := by
    rw [← (hxy.sound.leads hstored hedge).applyAll_eq, hxy.agrees r.cursor q hq]
    exact hleads.applyAll_eq
  rw [← hdoc]
  exact hxy.replays_iff hstored d

theorem Sound.intact (hs : s.Sound w fails) : s.Intact w.rule fails := by
  rcases hs.stage with ⟨⟨_, doc, head⟩, rfl, hx, htogether⟩
  have hpermits : ∀ q s, (Store.environment w.rule fails fun _ => True).permits q s :=
    fun _ _ => trivial
  refine ⟨⟨head, hx.heads, fun m hm => ?_⟩, fun m _ call o t hrun => ?_,
    fun m _ call e r t hrun => ?_⟩
  · have hr := htogether.consistent m.replica (List.mem_map_of_mem hm)
    rcases hr.cursor with ⟨c, hc, hlevel⟩
    constructor
    · exact ⟨c, hc, hlevel.symm⟩
    · exact hr.behind
    · refine ⟨doc m.replica.cursor, hx.replays_iff hc, ?_⟩
      intro hpending
      have hleads := hr.editing hpending
      exact ⟨hleads.anchors, hleads.applyAll_eq.symm⟩
    · intro c hc
      have ha := hr.awaiting c hc
      rcases ha.edge with ⟨edge, hparents, -⟩
      exact ⟨ha.clean, ⟨edge, hparents⟩, ha.same, replays_pending hx hr hc⟩
    · exact hs.authored m hm
    · exact hr.once
    · exact hs.faults m hm
  · have hout := (ensures_act hpermits m.replica call _).of_runs hrun
    rcases o with e | ⟨reply, r⟩
    · exact hout.elim
    · exact ⟨reply, r, rfl⟩
  · have hout : m.replica.Keeps (.error e, r) :=
      (ensures_act hpermits m.replica call _).of_runs hrun
    exact hout e rfl

/-- Whatever the calls and whatever fails, replicas that start on one root are intact between two
calls, as long as there are no more calls than ids. -/
theorem intact_of_steps {store : Store κ} {epoch count : Nat}
    (hroot : (initRoot epoch).run (Store.repository w.rule) .empty = (.ok w.root, store))
    (h : Steps w.rule fails (start store w.root count) n s) (hids : n + 1 ≤ w.limit) :
    s.Intact w.rule fails := by
  have hstarted := started_of_run hroot
  have hserial : s.store.serial ≤ store.serial + n := h.serial_le
  rw [hstarted.serial] at hserial
  have hstart : (start store w.root count).Sound w fails :=
    sound_start hstarted (by omega) count
  exact (hstart.steps h (by omega)).intact

/-! ## A push that is not acknowledged -/

/-- The team after a call in which no request fails, if the call can be made. -/
def turn? (rule : IdRule κ) (s : Team κ) (i : Nat) (call : Call) : Option (Team κ) :=
  match s.members[i]? with
  | none => none
  | some m =>
    match (call.act m.replica).run (Store.repository rule) s.store with
    | (.error _, _) => none
    | (.ok (reply, r), t) => some ⟨t, s.members.set i ⟨r, m.log ++ [reply]⟩⟩

def turns? (rule : IdRule κ) : List (Nat × Call) → Team κ → Option (Team κ)
  | [], s => some s
  | (i, c) :: calls, s =>
    match turn? rule s i c with
    | none => none
    | some t => turns? rule calls t

theorem step_of_turn {i : Nat} {call : Call} (h : turn? rule s i call = some t) :
    Step rule fails s t := by
  unfold turn? at h
  split at h
  next => cases h
  next m hm =>
    have hrun := Store.runs_of_run rule fails (call.act m.replica) s.store
    split at h
    next => cases h
    next reply r u heq =>
      cases h
      rw [heq] at hrun
      exact .call call hm hrun

theorem Steps.turns {u : Team κ} {calls : List (Nat × Call)} (h : Steps rule fails s n t)
    (hu : turns? rule calls t = some u) : Steps rule fails s (n + calls.length) u := by
  induction calls generalizing n t with
  | nil =>
      cases hu
      exact h
  | cons c calls ih =>
      unfold turns? at hu
      split at hu
      next => cases hu
      next v hv =>
        rw [List.length_cons, Nat.add_comm calls.length, ← Nat.add_assoc]
        exact ih (h.tail (step_of_turn hv)) hu

def lost : Fault := Injection.lostAck.fault

def draft : Commit UInt64 := ⟨2, .single 1 [Document.edit ∅ "k" (some "a")], 2, 0, none⟩

def drafter : Member UInt64 where
  replica := ⟨0, 1, 1, Document.apply ∅ (Document.edit ∅ "k" (some "a")), [], some draft, [2]⟩
  log := [.ok (.edited (some (Document.edit ∅ "k" (some "a")))), .ok (.committed (some 2))]

def drafted : Team UInt64 where
  store := { Simulation.rooted with serial := 2 }
  members := [drafter, ⟨{ id := 1, cursor := 1 }, []⟩]

def delivered : Team UInt64 where
  store := { drafted.store with pushed := 2, commits := drafted.store.commits.insertIfNew 2 draft }
  members := drafted.members.set 0 ⟨drafter.replica, drafter.log ++ [.error lost]⟩

/-- A commit is stored without an acknowledgement, the other replica brings in an edit of its own,
the commit is pushed again and merged, and the other replica catches up. -/
theorem intact_unacknowledged :
    (initRoot 0).run (Store.repository (.sequential 1)) .empty = (.ok 1, Simulation.rooted) ∧
    ∃ s, Steps (.sequential 1) (· = lost) (start Simulation.rooted 1 2) 8 s ∧
      8 + 1 ≤ Simulation.site.limit ∧ (∃ m ∈ s.members, .error lost ∈ m.log) ∧
      s.store.heads = .single 4 ∧ s.Intact (.sequential 1) (· = lost) := by
  have hroot : (initRoot 0).run (Store.repository (.sequential 1)) .empty =
      (.ok 1, Simulation.rooted) := rfl
  have hdraft : turns? (.sequential 1) [(0, .edit "k" (some "a")), (0, .commit)]
      (start Simulation.rooted 1 2) = some drafted := rfl
  have hlost : (Call.push.act drafter.replica).Runs
      (Store.environment (.sequential 1) (· = lost) fun _ => True) drafted.store
        (.ok (.error lost, drafter.replica)) delivered.store :=
    .call ⟨.inr ⟨lost, rfl, rfl, .inr ⟨[draft], rfl, rfl⟩⟩, trivial⟩ (.done _ _)
  have hpush : Step (.sequential 1) (· = lost) drafted delivered := .call .push rfl hlost
  have hfinal : ∃ s, turns? (.sequential 1) [(1, .edit "j" (some "b")), (1, .commit), (1, .push),
      (0, .push), (1, .fetch)] delivered = some s ∧ (∃ m ∈ s.members, .error lost ∈ m.log) ∧
        s.store.heads = .single 4 :=
    ⟨_, rfl, ⟨_, List.mem_cons_self, by simp⟩, rfl⟩
  rcases hfinal with ⟨s, hturns, hlog, hheads⟩
  have hsteps : Steps (.sequential 1) (· = lost) (start Simulation.rooted 1 2) 8 s :=
    ((Steps.refl.turns hdraft).tail hpush).turns hturns
  have hids : 8 + 1 ≤ Simulation.site.limit := by decide
  exact ⟨hroot, s, hsteps, hids, hlog, hheads, intact_of_steps hroot hsteps hids⟩

end Team

end Confluence
