import Confluence.Repository.Request

/-!
# Waiting for new heads

A watcher remembers the announcement it has seen last. Its first look answers at once; later looks
answer only when there is a newer announcement. A repository that announces nothing is asked for
its active heads at every look.
-/

namespace Confluence

/-- What a watcher remembers: the version of the last announcement it has seen. -/
structure Watcher where
  seen : Option Nat := none
deriving DecidableEq, Inhabited

/-- The next heads for a watcher, or `none` as long as there is nothing new. -/
def Repository.look {κ σ : Type} [CommitId κ] (repository : Repository κ σ) (w : Watcher)
    (s : σ) : Option (Except Fault (OrdSet κ) × Watcher × σ) :=
  match repository.announced with
  | none =>
    let (heads, s) := repository.answer .activeHeads s
    some (heads, w, s)
  | some announcement =>
    let a := announcement s
    if w.seen = some a.version then none else some (.ok a.heads, ⟨some a.version⟩, s)

end Confluence
