import Confluence.Commit.Basic

/-!
# Frontiers

A walk back through a history keeps the commits it has met and not yet visited, each with what is
known about it. It visits the greatest first: the highest level counts, and on one level the
greatest id. Since a parent lies below its children, a commit is visited after all its descendants.
-/

namespace Confluence

/-- The commits that a walk has still to visit, by id. -/
abbrev Frontier (κ : Type) [CommitId κ] (β : Type) := OrdMap κ (Commit κ × β)

namespace Frontier

variable {κ : Type} [CommitId κ] {β : Type}

/-- The later of two entries unless the earlier one lies higher. -/
def higher (best : Option (Commit κ × β)) (e : κ × Commit κ × β) : Option (Commit κ × β) :=
  match best with
  | none => some e.2
  | some b => if b.1.level ≤ e.2.1.level then some e.2 else some b

/-- The entry with the highest level, and of those on one level the one with the greatest id. -/
def top? (f : Frontier κ β) : Option (Commit κ × β) := f.toList.foldl higher none

def pop? (f : Frontier κ β) : Option ((Commit κ × β) × Frontier κ β) :=
  f.top?.map fun e => (e, f.erase e.1.id)

/-- Adds commits with what is known about them. -/
def add (f : Frontier κ β) (entries : List (Commit κ × β)) : Frontier κ β :=
  entries.foldl (fun f e => f.insert e.1.id e) f

end Frontier

end Confluence
