import TreeQuery.Event
import TreeQuery.Tree.Traversal

namespace TreeQuery

-- A position of the evaluation. Above the root is a level of its own whose only child is the root;
-- it is never part of a result.
inductive Cursor
  | node (id : Nat)
  | aboveRoot
deriving DecidableEq

namespace Cursor

def id? : Cursor → Option Nat
  | node id   => some id
  | aboveRoot => none

def children (t : Tree) : Cursor → List Nat
  | node id   => t.children id
  | aboveRoot => [t.root]

def parent? (t : Tree) : Cursor → Option Cursor
  | node id   => some <| (t.parent? id).elim aboveRoot node
  | aboveRoot => none

end Cursor

-- What is left after a path, and the number of cursors behind each segment that was applied.
structure Walk where
  cursors : List Cursor
  visits  : Visits
  applied : List (Segment × Nat)

def Walk.found (w : Walk) : List Nat :=
  w.cursors.filterMap Cursor.id?

-- An evaluation looks at the nodes of a tree by their ids. It has no result if it looks at an id
-- that the tree does not have.
namespace Tree

variable (t : Tree)

def sift (p : Node → Bool) : List Nat → Option (List Nat)
  | []        => some []
  | id :: ids => do
    let n ← t.get? id
    let rest ← sift p ids
    return if p n then id :: rest else rest

-- The nodes on which the path of a step from `c` can go on, in order. Descendants are collected
-- anew for each cursor.
def successors (v : Visits) (c : Cursor) : Step → Option (List Cursor × Visits)
  | .named name  => do
    let ids ← t.sift (·.name = name) (c.children t)
    return (ids.map .node, v)
  | .wildcard    => some ((c.children t).map .node, v)
  | .descendants =>
    let (ids, v') := t.collect v.newRound (c.children t)
    some (ids.map .node, v')
  | .current     => some ([c], v)
  | .parent      => some ((c.parent? t).toList, v)

def step (s : Step) (v : Visits) : List Cursor → Option (List Cursor × Visits)
  | []      => some ([], v)
  | c :: cs => do
    let (found, v₁) ← t.successors v c s
    let (rest, v₂) ← step s v₁ cs
    return (found ++ rest, v₂)

-- The level above the root has no properties, so a filter keeps it only if it keeps everything.
def admits (f : Filter) : Cursor → Option Bool
  | .node id   => (t.get? id).map f.accepts
  | .aboveRoot => some f.acceptsAll

def restrict (f : Filter) : List Cursor → Option (List Cursor)
  | []      => some []
  | c :: cs => do
    let kept ← t.admits f c
    let rest ← restrict f cs
    return if kept then c :: rest else rest

def filtered (f : Option Filter) (cs : List Cursor) : Option (List Cursor) :=
  match f with
  | none   => some cs
  | some f => t.restrict f cs

-- Applies the segments of a path one after the other as long as there are cursors left.
def follow (v : Visits) : List Cursor → List Segment → Option Walk
  | [],      _         => some { cursors := [], visits := v, applied := [] }
  | c :: cs, []        => some { cursors := c :: cs, visits := v, applied := [] }
  | c :: cs, s :: path => do
    let (next, v₁) ← t.step s.step v (c :: cs)
    let kept ← t.filtered s.filter next
    let walk ← follow v₁ kept path
    return { walk with applied := (s, kept.length) :: walk.applied }

-- At the root, a name or a wildcard stands for the root itself. The root has no parent.
def rootStep (v : Visits) : Step → Option (List Nat × Visits)
  | .named name          => do return (← t.sift (·.name = name) [t.root], v)
  | .wildcard | .current => some ([t.root], v)
  | .descendants         => some <| t.collect v.newRound (t.children t.root)
  | .parent              => some ([], v)

-- Anywhere, a step stands for all nodes that the step can lead to. Nodes with children are the
-- parents.
def deepStep (v : Visits) (s : Step) : Option (List Nat × Visits) := do
  let (ids, v') := t.collect v.newRound [t.root]
  match s with
  | .named name          => return (← t.sift (·.name = name) ids, v')
  | .wildcard | .current => return (ids, v')
  | .descendants         => return (ids.filter (· ≠ t.root), v')
  | .parent              => return (ids.filter fun id => !(t.children id).isEmpty, v')

def firstStep (v : Visits) (s : Step) : Anchor → Option (List Nat × Visits)
  | .root     => t.rootStep v s
  | .anywhere => t.deepStep v s

-- The result may hold duplicates.
def walk (v : Visits) (a : Alternative) : Option Walk := do
  let (ids, v₁) ← t.firstStep v a.first.step a.anchor
  let kept ← t.filtered a.first.filter (ids.map .node)
  t.follow v₁ kept a.path

-- The walks of several alternatives share one table of visits.
def walks (v : Visits) : List Alternative → Option (List (Alternative × Walk))
  | []      => some []
  | a :: as => do
    let w ← t.walk v a
    let rest ← walks w.visits as
    return (a, w) :: rest

end Tree

structure Answer where
  found : List Nat
  log   : List Event

def Walk.log (a : Alternative) (w : Walk) : List Event :=
  w.applied.map (fun (s, size) => .appliedSegment s size) ++
    [.evaluatedAlternative a w.found.length]

-- The nodes are listed in the order in which they are first found, each once.
def Tree.evaluate (t : Tree) (s : Selector) : Option Answer := do
  let ws ← t.walks (.ofTree t) s.alternatives
  return {
    found := (ws.flatMap fun (_, w) => w.found).eraseDups
    log   := ws.flatMap fun (a, w) => w.log a
  }

end TreeQuery
