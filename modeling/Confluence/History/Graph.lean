import Confluence.Commit.Basic

/-!
# Commit graphs

A graph holds some commits of a history with the links between them in both directions. Commits may
be inserted in any order: a child whose parent is not loaded waits under the parent's id. A commit
whose id is taken is passed by.
-/

namespace Confluence

/-- A commit with the loaded commits that have it for a parent. -/
structure GraphNode (κ : Type) [CommitId κ] where
  commit : Commit κ
  children : OrdSet κ

/-- Commits with their links. -/
structure Graph (κ : Type) [CommitId κ] where
  nodes : OrdMap κ (GraphNode κ) := ∅
  /-- By commits that are not loaded, the loaded commits that have them for a parent. -/
  waiting : OrdMap κ (OrdSet κ) := ∅

namespace Graph

variable {κ : Type} [CommitId κ]

def empty : Graph κ := {}

/-- Notes a child under its parent, or under the parent's id if that is not loaded. -/
def link (child : κ) (g : Graph κ) (parent : κ) : Graph κ :=
  match g.nodes.get? parent with
  | some node =>
    { g with nodes := g.nodes.insert parent { node with children := node.children.insert child } }
  | none =>
    { g with
      waiting := g.waiting.insert parent (((g.waiting.get? parent).getD ∅).insert child) }

/-- Adds a commit, with the children that waited for it. -/
def insert (g : Graph κ) (c : Commit κ) : Graph κ :=
  if g.nodes.contains c.id then g
  else
    let g := c.parentIds.foldl (link c.id) g
    { nodes := g.nodes.insert c.id ⟨c, (g.waiting.get? c.id).getD ∅⟩
      waiting := g.waiting.erase c.id }

def ofList (commits : List (Commit κ)) : Graph κ := commits.foldl insert empty

def size (g : Graph κ) : Nat := g.nodes.size

def commits (g : Graph κ) : List (Commit κ) := g.nodes.values.map GraphNode.commit

def contains (g : Graph κ) (id : κ) : Bool := g.nodes.contains id

/-- The commits with no loaded parent. -/
def roots (g : Graph κ) : List κ :=
  (g.nodes.toList.filter fun e => e.2.commit.parentIds.all fun p => !g.contains p).map (·.1)

/-- The commits with no children. -/
def tips (g : Graph κ) : List κ :=
  (g.nodes.toList.filter fun e => e.2.children.isEmpty).map (·.1)

/-- Collects the ids that are reached from a queue of commits, following the links that `links`
gives. Each of at most `fuel` steps follows the links of one commit. -/
def reach (g : Graph κ) (links : GraphNode κ → List κ) : Nat → List κ → OrdSet κ → OrdSet κ
  | 0, _, seen => seen
  | _, [], seen => seen
  | fuel + 1, id :: queue, seen =>
    match g.nodes.get? id with
    | none => reach g links fuel queue seen
    | some node =>
      let fresh := (links node).filter fun i => !seen.contains i
      reach g links fuel (queue ++ fresh.filter g.contains) (seen.insertMany fresh)

/-- What is reached from a commit by one or more links. Only loaded commits have links, and each is
followed once, but the start may be met again as the end of a circle. -/
def reachFrom (g : Graph κ) (links : GraphNode κ → List κ) (id : κ) : OrdSet κ :=
  g.reach links (g.size + 1) [id] ∅

/-- The parents of a commit, their parents, and so on, up to parents that are not loaded. -/
def ancestors (g : Graph κ) (id : κ) : OrdSet κ := g.reachFrom (fun n => n.commit.parentIds) id

/-- The children of a commit, their children, and so on. -/
def descendants (g : Graph κ) (id : κ) : OrdSet κ := g.reachFrom (fun n => n.children.toList) id

/-- Whether a commit is another one's ancestor; no commit is its own. -/
def isAncestor (g : Graph κ) (ancestor descendant : κ) : Bool :=
  ancestor ≠ descendant && (g.ancestors descendant).contains ancestor

/-- The commits by ascending level, and on one level by ascending id. -/
def topologicalOrder (g : Graph κ) : List (Commit κ) :=
  g.commits.mergeSort fun a b => a.level ≤ b.level

/-! ## Drawing -/

/-- A text between the quotes of a label. -/
def escapeLabel (s : String) : String :=
  String.ofList (s.toList.flatMap fun c => if c = '\\' ∨ c = '"' then ['\\', c] else [c])

/-- The line of a commit; the current one is filled. -/
def nodeLine (current : Option κ) (c : Commit κ) : String :=
  let id := CommitId.text c.id
  "  \"" ++ id ++ "\" [label=\"" ++ id ++ " (level " ++ toString c.level ++ ", epoch " ++
    toString c.epoch ++ ")\"" ++ (if current = some c.id then ", style=filled" else "") ++ "];\n"

def edgeLine (describe : List Operation → String) (c : Commit κ) (e : κ × List Operation) :
    String :=
  "  \"" ++ CommitId.text e.1 ++ "\" -> \"" ++ CommitId.text c.id ++ "\" [label=\"" ++
    escapeLabel (describe e.2) ++ "\"];\n"

/-- The graph in the DOT language, parents below their children; `describe` labels the edges. -/
def toDot (g : Graph κ) (current : Option κ) (describe : List Operation → String) : String :=
  let body := g.topologicalOrder.map fun c =>
    nodeLine current c ++ String.join (c.parents.toList.map (edgeLine describe c))
  "digraph commits \x7b\n  rankdir=BT;\n" ++ String.join body ++ "\x7d\n"

/-- Labels an edge with the number of its operations. -/
def describeCount (l : List Operation) : String := toString l.length ++ " diff(s)"

/-- Labels an edge with the keys of its operations. -/
def describeKeys (l : List Operation) : String :=
  ",".intercalate (l.flatMap fun o => o.changes.keys)

/-- Labels an edge with the number of keys in its operations. -/
def describeKeyCount (l : List Operation) : String :=
  toString (l.foldl (fun n o => n + o.changes.size) 0) ++ " key(s)"

end Graph

end Confluence
