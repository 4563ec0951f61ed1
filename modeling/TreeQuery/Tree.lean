import TreeQuery.Node

namespace TreeQuery

-- A tree is an arena of nodes with its root in the first place. Nodes are only ever added at the
-- end, below a node that is there already, so a parent has a smaller id than its children.
structure Tree where
  nodes : Array Node

-- The error of adding a child below a node that does not exist.
structure ForeignParent where
  parent : Nat

def ForeignParent.message (e : ForeignParent) : String :=
  s!"parent NodeId({e.parent}) is not in this tree"

namespace Tree

def size (t : Tree) : Nat :=
  t.nodes.size

def root (_ : Tree) : Nat :=
  0

-- Links that the node carries from elsewhere are dropped, here and in `attach`.
def ofRoot (n : Node) : Tree where
  nodes := #[{ n with children := [], parent := none }]

def get? (t : Tree) (id : Nat) : Option Node :=
  t.nodes[id]?

def parent? (t : Tree) (id : Nat) : Option Nat :=
  (t.get? id).bind (·.parent)

def children (t : Tree) (id : Nat) : List Nat :=
  (t.get? id).elim [] (·.children)

-- Adds a last child to a node. The id of the child is the former size of the tree.
def attach (t : Tree) (parent : Nat) (n : Node) : Tree :=
  let linked := t.nodes.modify parent fun p => { p with children := p.children ++ [t.size] }
  ⟨linked.push { n with children := [], parent := some parent }⟩

theorem size_ofRoot {n : Node} : (ofRoot n).size = 1 :=
  rfl

theorem size_attach {t : Tree} {parent : Nat} {n : Node} :
    (t.attach parent n).size = t.size + 1 := by
  simp [attach, size]

theorem get?_attach_size {t : Tree} {parent : Nat} {n : Node} :
    (t.attach parent n).get? t.size = some { n with children := [], parent := some parent } := by
  simp [attach, get?, size, Array.getElem_push]

-- The nodes that were there before keep all that they are, except that the parent gets a child.
theorem get?_attach_of_lt {t : Tree} {parent id : Nat} {n : Node} (h : id < t.size) :
    (t.attach parent n).get? id = (t.get? id).map fun m =>
      if id = parent then { m with children := m.children ++ [t.size] } else m := by
  have h' : id < t.nodes.size := h
  simp [attach, get?, Array.getElem?_push, Array.getElem_modify, h', Nat.ne_of_lt h', eq_comm]

def addChild (t : Tree) (parent : Nat) (n : Node) : Except ForeignParent (Nat × Tree) :=
  if parent < t.size then .ok (t.size, t.attach parent n) else .error ⟨parent⟩

-- The names from a node up to the root.
def namesUp (t : Tree) (id : Nat) : List String :=
  match t.get? id with
  | none   => []
  | some n =>
    match n.parent with
    | none   => [n.name]
    | some p => n.name :: if p < id then t.namesUp p else []
termination_by id

def pathOf (t : Tree) (id : Nat) : String :=
  String.join <| (t.namesUp id).reverse.map ("/" ++ ·)

end Tree
end TreeQuery
