import TreeQuery.Json.Document
import TreeQuery.Tree

namespace TreeQuery

open Json (Document)

def Attributes.document (as : Attributes) : Document :=
  .record <| as.entries.map fun (key, value) => (key, .text value)

def Node.document (n : Node) (path : String) : Document :=
  .record [
    ("path", .text path),
    ("name", .text n.name),
    ("type", nullable n.kind),
    ("variant", nullable n.variant),
    ("version", nullable n.version),
    ("attributes", n.attributes.document)]
where
  nullable : Option String → Document
    | none   => .null
    | some s => .text s

-- One record for each of the given nodes, which all have to be nodes of the tree.
def Tree.report (t : Tree) (ids : List Nat) : Option Document := do
  let records ← ids.mapM fun id => (t.get? id).map (·.document (t.pathOf id))
  return .array records

end TreeQuery
