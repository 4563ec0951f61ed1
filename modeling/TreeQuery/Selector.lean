namespace TreeQuery

inductive Value
  | any
  | exactly (text : String)
deriving DecidableEq

structure Condition where
  key   : String
  value : Value
deriving DecidableEq

-- A filter is the conjunction of its conditions.
structure Filter where
  conditions : List Condition
deriving DecidableEq

-- True if the filter cannot reject anything.
def Filter.acceptsAll (f : Filter) : Bool :=
  f.conditions.all (·.value = .any)

inductive Step
  | named (name : String)
  | wildcard
  | descendants
  | current
  | parent
deriving DecidableEq

structure Segment where
  step   : Step
  filter : Option Filter
deriving DecidableEq

-- A path starts at the root of the tree or at all of its nodes.
inductive Anchor
  | root
  | anywhere
deriving DecidableEq

structure Alternative where
  anchor : Anchor
  first  : Segment
  path   : List Segment
deriving DecidableEq

-- A selector designates the union of what its alternatives designate.
structure Selector where
  alternatives : List Alternative
deriving DecidableEq

end TreeQuery
