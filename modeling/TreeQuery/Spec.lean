import TreeQuery.Attributes

namespace TreeQuery

-- A node together with everything below it, as documents describe it.
structure Spec where
  name       : String
  kind       : Option String
  variant    : Option String
  version    : Option String
  attributes : Attributes
  children   : List Spec

end TreeQuery
