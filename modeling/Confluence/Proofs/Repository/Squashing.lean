import Confluence.Proofs.Document.Difference
import Confluence.Proofs.Repository.Coupling
import Confluence.Proofs.Repository.Walks

/-!
# Squashing on the way

A search that squashes at every edge it follows and one that keeps every operation ask for the same
commits and visit them in the same order. What the first one keeps of a way is the squashed list of
the second, because every edge leads between the documents of its ends: a key whose changes cancel
out is dropped before the edges below it are known, but its value there is the one that the next
edge finds. So both end alike, whatever the probe does and however often the repository fails, and
the paths that they find differ only by squashing.
-/

namespace Confluence

open History Program

section

variable {κ τ : Type}

def Path.squashed (path : Path κ (List Operation)) : Path κ (List Operation) :=
  { path with diffs := Operation.squash path.diffs }

def Found.squashed (found : Found κ (List Operation) τ) : Found κ (List Operation) τ :=
  { found with path := found.path.squashed }

def SearchReport.squashed (r : SearchReport κ (List Operation) τ) :
    SearchReport κ (List Operation) τ :=
  { r with outcome := r.outcome.map Found.squashed }

/-- Squashing before an edge is followed and after it comes to the same. -/
theorem Path.squashed_extend {path : Path κ (List Operation)} {a b c : Document}
    {edge : List Operation} (hedge : Document.Leads a edge b)
    (hpath : Document.Leads b path.diffs c) :
    (path.extend .list edge).squashed = path.squashed.extend .squashed edge := by
  have hdiffs : Operation.squash (edge ++ path.diffs) =
      Operation.squash (edge ++ Operation.squash path.diffs) :=
    (hedge.append hpath).squash_unique (hedge.append hpath.squash)
  exact congrArg (fun diffs => { path with diffs }) hdiffs

end

variable {κ : Type} [CommitId κ] {τ : Type}

namespace Search

def squashedEntry (e : Commit κ × Path κ (List Operation)) : Commit κ × Path κ (List Operation) :=
  (e.1, e.2.squashed)

theorem inPlace_squashedEntry :
    Frontier.InPlace fun e : Commit κ × Path κ (List Operation) => squashedEntry e :=
  fun _ => ⟨rfl, rfl⟩

def State.squashed (s : State κ (List Operation)) : State κ (List Operation) :=
  { s with frontier := s.frontier.map squashedEntry }

/-- The commits of a frontier stand under their ids, and what is kept of a path leads from the
document of its lower end to that of the head it came from. -/
def Leading (h : History κ) (doc : κ → Document)
    (f : Frontier κ (Path κ (List Operation))) : Prop :=
  ∀ id e, f.get? id = some e →
    h.get? id = some e.1 ∧ Document.Leads (doc id) e.2.diffs (doc e.2.child)

namespace Leading

variable {h : History κ} {doc : κ → Document} {f rest : Frontier κ (Path κ (List Operation))}
  {c : Commit κ} {path : Path κ (List Operation)}

theorem add (hf : Leading h doc f) {entries : List (Commit κ × Path κ (List Operation))}
    (hentries : ∀ e ∈ entries, h.get? e.1.id = some e.1 ∧
      Document.Leads (doc e.1.id) e.2.diffs (doc e.2.child)) : Leading h doc (f.add entries) := by
  intro id e he
  rcases f.get?_add entries id with ⟨x, hx, rfl, hget⟩ | ⟨-, hget⟩
  · cases he.symm.trans hget
    exact hentries e hx
  · exact hf id e (hget.symm.trans he)

theorem pop (hf : Leading h doc f) (hg : h.Graded) (hpop : f.pop? = some ((c, path), rest)) :
    h.get? c.id = some c ∧ Document.Leads (doc c.id) path.diffs (doc path.child) ∧
      Leading h doc rest := by
  obtain ⟨hc, rfl, -⟩ := Frontier.pop?_eq_some (fun id e he => hg.filed (hf id e he).1) hpop
  obtain ⟨hget, hleads⟩ := hf _ _ hc
  refine ⟨hget, hleads, fun id e he => ?_⟩
  rw [OrdMap.get?_erase] at he
  split at he
  next => cases he
  next => exact hf id e he

end Leading

section

variable {h : History κ} {doc : κ → Document} {c : Commit κ} {path : Path κ (List Operation)}
  {seen : OrdSet κ} {parents : List (Commit κ)}

theorem leads_of_mem_zip (hs : h.Sound doc) (hc : h.get? c.id = some c)
    (hparents : ((fresh seen c).map (·.1)).map h.get? = parents.map some)
    {e : Commit κ × κ × List Operation} (he : e ∈ parents.zip (fresh seen c)) :
    h.get? e.1.id = some e.1 ∧ Document.Leads (doc e.1.id) e.2.2 (doc c.id) := by
  obtain ⟨hmem, hget⟩ := (mem_zip_loaded hparents e).1 he
  have hid : e.1.id = e.2.1 := hs.filed hget
  rw [hid]
  exact ⟨hget, hs.leads hc (Walking.mem_fresh.1 hmem).1⟩

theorem Leading.advance {s : State κ (List Operation)}
    {rest : Frontier κ (Path κ (List Operation))} (hs : h.Sound doc) (hrest : Leading h doc rest)
    (hc : h.get? c.id = some c) (hpath : Document.Leads (doc c.id) path.diffs (doc path.child))
    (hparents : ((fresh s.seen c).map (·.1)).map h.get? = parents.map some) :
    Leading h doc (s.advance .list rest c path (fresh s.seen c) parents).frontier := by
  refine hrest.add fun e he => ?_
  obtain ⟨x, hx, rfl⟩ := List.mem_map.1 he
  obtain ⟨hget, hedge⟩ := leads_of_mem_zip hs hc hparents hx
  exact ⟨hget, hedge.append hpath⟩

theorem squashed_advance {s : State κ (List Operation)}
    {rest : Frontier κ (Path κ (List Operation))} (hs : h.Sound doc) (hc : h.get? c.id = some c)
    (hpath : Document.Leads (doc c.id) path.diffs (doc path.child))
    (hparents : ((fresh s.seen c).map (·.1)).map h.get? = parents.map some) :
    (s.advance .list rest c path (fresh s.seen c) parents).squashed =
      s.squashed.advance .squashed (rest.map squashedEntry) c path.squashed (fresh s.seen c)
        parents := by
  have hentries : ((parents.zip (fresh s.seen c)).map
        fun e => (e.1, path.extend .list e.2.2)).map squashedEntry =
      (parents.zip (fresh s.seen c)).map fun e => (e.1, path.squashed.extend .squashed e.2.2) := by
    rw [List.map_map]
    refine List.map_congr_left fun e he => ?_
    exact congrArg (Prod.mk e.1)
      (Path.squashed_extend (leads_of_mem_zip hs hc hparents he).2 hpath)
  simp only [State.squashed, State.advance, Frontier.map_add inPlace_squashedEntry, hentries]

/-- The two searches go on together. -/
theorem coupled_walk {probe : Probe κ τ} {none : Fault} (hs : h.Sound doc) (fuel : Nat)
    {s : State κ (List Operation)} (hleading : Leading h doc s.frontier) :
    Coupled h (fun r r' => r' = r.squashed) (walk .list probe none fuel s)
      (walk .squashed probe none fuel s.squashed) := by
  induction fuel generalizing s with
  | zero => exact coupled_pure rfl
  | succ fuel ih =>
      have hpop' : s.squashed.frontier.pop? =
          s.frontier.pop?.map fun e => (squashedEntry e.1, e.2.map squashedEntry) :=
        Frontier.pop?_map inPlace_squashedEntry s.frontier
      cases hpop : s.frontier.pop? with
      | none =>
          simp only [walk, hpop', hpop, Option.map_none]
          exact coupled_pure rfl
      | some e =>
          obtain ⟨⟨c, path⟩, rest⟩ := e
          obtain ⟨hc, hpath, hrest⟩ := hleading.pop hs.toGraded hpop
          simp only [walk, hpop', hpop, Option.map_some, squashedEntry]
          refine (coupled_self (probe _ c).attempt).bind ?_
          rintro (e | _ | value) _ rfl
          · exact coupled_pure rfl
          · have hstored : ∀ id ∈ (fresh s.seen c).map (·.1), ∃ d, h.get? id = some d := by
              intro id hid
              obtain ⟨edge, hedge, rfl⟩ := List.mem_map.1 hid
              exact hs.exists_of_isParent ⟨c, edge.2, hc, (Walking.mem_fresh.1 hedge).1⟩
            refine (coupled_loadCommits hstored).attempt.bind ?_
            rintro _ _ (⟨rfl, hparents⟩ | e)
            · have hnext := ih (hrest.advance hs hc hpath hparents)
              rw [squashed_advance hs hc hpath hparents] at hnext
              exact hnext
            · exact coupled_pure rfl
          · exact coupled_pure rfl

end

theorem leading_start {h : History κ} {doc : κ → Document} (hg : h.Graded) {heads : OrdSet κ}
    {cs : List (Commit κ)} (hcs : heads.toList.map h.get? = cs.map some) :
    Leading h doc (start .list heads cs).frontier := by
  intro id e he
  obtain ⟨-, c, hc, rfl⟩ := (Frontier.get?_add_loaded (fun _ _ => hg.filed) hcs _ id e).1 he
  have hid : c.id = id := hg.filed hc
  refine ⟨hc, ?_⟩
  rw [← hid]
  exact .nil _

theorem squashed_start (heads : OrdSet κ) (cs : List (Commit κ)) :
    (start .list heads cs).squashed = start .squashed heads cs := by
  simp only [State.squashed, start, Frontier.map_add inPlace_squashedEntry, List.map_map]
  rfl

theorem find_eq_bind {α : Type} (heads : OrdSet κ) (acc : Accumulator α) (probe : Probe κ τ) :
    find heads acc probe = prepare heads >>= fun p =>
      walk acc probe (exhausted heads) p.2 (start acc heads p.1) >>= fun r =>
        ofExcept r.outcome := by
  unfold find report
  generalize prepare heads = p
  induction p with
  | done o => cases o <;> rfl
  | call r next ih => exact congrArg (call r) (funext ih)

theorem coupled_find {h : History κ} {doc : κ → Document} (hs : h.Sound doc) {heads : OrdSet κ}
    {cs : List (Commit κ)} (hcs : heads.toList.map h.get? = cs.map some) (probe : Probe κ τ)
    (none : Fault) (fuel : Nat) :
    Coupled h (fun found found' => found' = found.squashed)
      (walk .list probe none fuel (start .list heads cs) >>= fun r => ofExcept r.outcome)
      (walk .squashed probe none fuel (start .squashed heads cs) >>= fun r =>
        ofExcept r.outcome) := by
  rw [← squashed_start]
  refine (coupled_walk hs fuel (leading_start hs.toGraded hcs)).bind ?_
  rintro ⟨visits, o⟩ _ rfl
  cases o with
  | ok found => exact .value rfl
  | error e => exact .fault e

/-! ## Runs -/

section

variable {rule : IdRule κ} {fails : Fault → Prop} {allows : Store κ → Prop} {s : Store κ}

theorem ensures_loadCommits (ids : List κ) :
    (loadCommits ids).Ensures (Store.environment rule fails allows)
      (fun cs t => ids.map s.commits.get? = cs.map some ∧ t = s) (fun _ _ => True) s := by
  induction ids with
  | nil => exact ensures_pure ⟨rfl, rfl⟩
  | cons id ids ih =>
      apply Ensures.bind
      refine ensures_ask trivial (fun c t hc => ?_) fun _ _ _ => trivial
      have hanswer := hc.1.answer_of_ok
      simp only [Store.answer] at hanswer
      split at hanswer
      next d hd =>
        cases hanswer
        apply Ensures.bind
        refine ih.mono (fun cs t hcs => ?_) fun _ _ _ => trivial
        exact ensures_pure ⟨by rw [List.map_cons, List.map_cons, hd, hcs.1], hcs.2⟩
      next => cases hanswer

theorem ensures_prepare (heads : OrdSet κ) :
    (prepare heads).Ensures (Store.environment rule fails allows)
      (fun p t => heads.toList.map s.commits.get? = p.1.map some ∧ t = s) (fun _ _ => True) s := by
  apply Ensures.bind
  refine (ensures_loadCommits heads.toList).mono (fun cs t hcs => ?_) fun _ _ _ => trivial
  obtain ⟨hcs, rfl⟩ := hcs
  apply Ensures.bind
  refine ensures_ask trivial (fun n u hn => ?_) fun _ _ _ => trivial
  have hanswer := hn.1.answer_of_ok
  cases hanswer
  exact ensures_pure ⟨hcs, rfl⟩

variable {σ : Type} {repository : Repository κ σ} {image : σ → Store κ} {holds : σ → Prop} {u : σ}
  {doc : κ → Document}

/-- In a repository that answers like a store that may fail, the two searches come to one state and
end alike, up to squashing. -/
theorem run_find_of_refines
    (hr : repository.environment.Refines (Store.environment rule fails fun _ => True) image holds)
    (hu : holds u) (hs : Sound (image u).commits doc) (heads : OrdSet κ) (probe : Probe κ τ) :
    ∃ o t, (find heads .list probe).run repository u = (o, t) ∧
      (find heads .squashed probe).run repository u = (o.map Found.squashed, t) := by
  rw [find_eq_bind, find_eq_bind]
  rcases (ensures_prepare heads).run_refined hr hu with
    ⟨⟨cs, n⟩, t, hrun, ⟨hcs, ht⟩, hholds⟩ | ⟨e, t, hrun, -⟩
  · have hcoupled := coupled_find hs hcs probe (exhausted heads) n
    obtain ⟨o, o', v, hlist, hsquashed, hagree⟩ := hcoupled.run hr hholds (ht ▸ .refl _)
    rw [run_bind_ok hrun, run_bind_ok hrun]
    refine ⟨o, v, hlist, ?_⟩
    rw [hsquashed]
    cases hagree with
    | ok hfound =>
        cases hfound
        rfl
    | error e => rfl
  · rw [run_bind_error hrun, run_bind_error hrun]
    exact ⟨.error e, t, rfl, rfl⟩

/-- Squashing at every step agrees with squashing once at the end. A search that keeps all
operations and one that squashes on the way succeed or fail together, find the same commit below the
same head, and what the second has kept is the squashed list of the first. The probe may do
anything, and the repository may fail now and then. -/
theorem find_squashed (rule : IdRule κ) (hs : Sound s.commits doc) (heads : OrdSet κ)
    (probe : Probe κ τ) :
    (∃ o t, (find heads .list probe).run (Store.repository rule) s = (o, t) ∧
      (find heads .squashed probe).run (Store.repository rule) s = (o.map Found.squashed, t)) ∧
    ∀ (rates : FaultRates) (u : Faulty (Store κ)), u.inner = s →
      ∃ o t, (find heads .list probe).run (Faulty.repository rates (Store.repository rule)) u =
          (o, t) ∧
        (find heads .squashed probe).run (Faulty.repository rates (Store.repository rule)) u =
          (o.map Found.squashed, t) := by
  refine ⟨run_find_of_refines (Store.repository_refines rule) trivial hs heads probe, ?_⟩
  rintro rates u rfl
  have hr := Faulty.repository_refines rule rates u.enabled fun _ => True
  exact run_find_of_refines
    ⟨fun _ _ => trivial, fun hu hp ha => hr.responds hu hp ⟨ha, trivial⟩⟩ rfl hs heads probe

def wavering : Store UInt64 where
  commits := .ofList (([
    ⟨1, ∅, 1, 0, none⟩,
    ⟨2, .single 1 [.single "k" ⟨none, some "a"⟩], 2, 0, none⟩,
    ⟨3, .single 2 [⟨.ofList [("j", ⟨none, some "b"⟩), ("k", ⟨some "a", none⟩)]⟩], 3, 0, none⟩] :
    List (Commit UInt64)).map fun c => (c.id, c))

def waveringDocument (id : UInt64) : Document :=
  if id = 2 then (∅ : Document).put "k" (some "a")
  else if id = 3 then (∅ : Document).put "j" (some "b")
  else ∅

/-- Accepts the first commit, by the number of the visit, and leaves a snapshot at every commit. -/
def marking : Probe UInt64 Nat := fun n c => do
  storeSnapshot c.id []
  return if c.id = 1 then some n else none

theorem find_squashed_wavering : Sound wavering.commits waveringDocument ∧
    ∃ found t, (find (.single 3) .list marking).run (Store.repository (.sequential 1)) wavering =
        (.ok found, t) ∧ found.commit = 1 ∧ found.value = 3 ∧
      found.path.diffs = [.single "k" ⟨none, some "a"⟩,
        ⟨.ofList [("j", ⟨none, some "b"⟩), ("k", ⟨some "a", none⟩)]⟩] ∧
      (find (.single 3) .squashed marking).run (Store.repository (.sequential 1)) wavering =
        (.ok found.squashed, t) ∧ t.snapshots.keys = [1, 2, 3] ∧
      found.squashed.path.diffs = [.single "j" ⟨none, some "b"⟩] := by
  have hs : Sound wavering.commits waveringDocument := by decide +kernel
  have hsummary : ((find (.single 3) .list marking).run (Store.repository (.sequential 1))
      wavering).1.map (fun found => (found.commit, found.value, found.path.diffs)) =
        .ok (1, 3, [.single "k" ⟨none, some "a"⟩,
          ⟨.ofList [("j", ⟨none, some "b"⟩), ("k", ⟨some "a", none⟩)]⟩]) := by decide +kernel
  have hsnapshots : ((find (.single 3) .list marking).run (Store.repository (.sequential 1))
      wavering).2.snapshots.keys = [1, 2, 3] := by decide +kernel
  obtain ⟨o, t, hlist, hsquashed⟩ := (find_squashed (.sequential 1) hs (.single 3) marking).1
  rw [hlist] at hsummary hsnapshots
  cases o with
  | error e => cases hsummary
  | ok found =>
      simp only [Except.map, Except.ok.injEq, Prod.mk.injEq] at hsummary
      obtain ⟨hcommit, hvalue, hdiffs⟩ := hsummary
      refine ⟨hs, found, t, hlist, hcommit, hvalue, hdiffs, hsquashed, hsnapshots, ?_⟩
      change Operation.squash found.path.diffs = _
      rw [hdiffs]
      decide

end

end Search

end Confluence
