import TreeQuery.Spec.Reader
import TreeQuery.Tree

namespace TreeQuery

inductive LoadError
  | json (fault : Json.Fault)
  | emptyName
deriving DecidableEq

namespace LoadError

def message : LoadError → String
  | json .malformed => "Invalid JSON: the text is not well formed"
  | json .cutOff    => "Invalid JSON: the text ends too early"
  | json .mismatch  => "Invalid JSON: the text does not describe a node"
  | emptyName       => "Invalid tree: node name must not be empty"

end LoadError

-- The node without the nodes below it.
def Spec.toNode (s : Spec) : Except LoadError Node :=
  if s.name.isEmpty then
    .error .emptyName
  else
    .ok {
      name       := s.name
      kind       := s.kind
      variant    := s.variant
      version    := s.version
      attributes := s.attributes
      children   := []
      parent     := none
    }

theorem Spec.sizeOf_children_lt (s : Spec) : sizeOf s.children < sizeOf s := by
  cases s
  simp only [Spec.mk.sizeOf_spec]
  omega

namespace Tree

-- Adds the nodes of the pending lists below the given parents. The children of a node get
-- consecutive ids, and the list of the child that was added last comes next.
def grow (t : Tree) : List (Nat × List Spec) → Except LoadError Tree
  | []                                 => .ok t
  | (_, []) :: pending                 => t.grow pending
  | (parent, s :: specs) :: pending    =>
    match s.toNode with
    | .error e => .error e
    | .ok n    => (t.attach parent n).grow ((parent, specs) :: (t.size, s.children) :: pending)
termination_by pending => pending.foldr (fun (_, specs) n => sizeOf specs + n) 0
decreasing_by
  · simp
  · have := s.sizeOf_children_lt
    simp only [List.foldr_cons, List.cons.sizeOf_spec]
    omega

def ofSpec (s : Spec) : Except LoadError Tree := do
  let n ← s.toNode
  (ofRoot n).grow [(0, s.children)]

def ofJson (text : String) : Except LoadError Tree :=
  match Spec.ofJson text with
  | .error f => .error (.json f)
  | .ok s    => ofSpec s

end Tree
end TreeQuery
