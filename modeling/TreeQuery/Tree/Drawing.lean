import TreeQuery.Tree

namespace TreeQuery.Tree

-- The rows below a node, where `indent` stands in front of each row. The last child of a node gets
-- a corner, and no line runs down from it to the rows below.
def rowsBelow (t : Tree) (indent : String) (id : Nat) : List Nat → List String
  | []            => []
  | child :: rest =>
    let (branch, line) := if rest.isEmpty then ("└── ", "    ") else ("├── ", "│   ")
    let row := indent ++ branch ++ (t.get? child).elim "" Node.describe
    let below :=
      if id < child ∧ child < t.size then
        t.rowsBelow (indent ++ line) child (t.children child)
      else
        []
    row :: below ++ t.rowsBelow indent id rest
termination_by ids => (t.size - id, ids.length)
decreasing_by
  · exact Prod.Lex.left _ _ <| by omega
  · exact Prod.Lex.right _ <| Nat.lt_succ_self _

def rows (t : Tree) : List String :=
  (t.get? t.root).elim "" Node.describe :: t.rowsBelow "" t.root (t.children t.root)

def drawing (t : Tree) : String :=
  String.join <| t.rows.map (· ++ "\n")

end TreeQuery.Tree
