import TreeQuery.Attributes
import TreeQuery.Selector

namespace TreeQuery

-- The id of a node is its place in the arena of its tree.
structure Node where
  name       : String
  kind       : Option String
  variant    : Option String
  version    : Option String
  attributes : Attributes
  children   : List Nat
  parent     : Option Nat
deriving DecidableEq

namespace Node

-- What a key denotes in a filter. The built-in properties hide attributes of the same name.
def property? (n : Node) : String → Option String
  | "type"    => n.kind
  | "variant" => n.variant
  | "version" => n.version
  | key       => n.attributes.get? key

-- Equality up to the order of the attributes.
def agree (m n : Node) : Bool :=
  m.name = n.name && m.kind = n.kind && m.variant = n.variant && m.version = n.version &&
    m.attributes.agree n.attributes && m.children = n.children && m.parent = n.parent

-- One line with the name, the built-in properties and the attributes.
def describe (n : Node) : String :=
  n.name ++ group " [" "]" (properties n) ++ group " \x7b" "\x7d" n.attributes.entries
where
  properties (n : Node) : List (String × String) :=
    [("type", n.kind), ("variant", n.variant), ("version", n.version)].filterMap
      fun (key, value) => value.map (key, ·)
  group (opening closing : String) : List (String × String) → String
    | []      => ""
    | entries => opening ++ ", ".intercalate (entries.map fun (k, v) => s!"{k}={v}") ++ closing

end Node

def Condition.accepts (c : Condition) (n : Node) : Bool :=
  match c.value with
  | .any          => true
  | .exactly text => n.property? c.key = some text

def Filter.accepts (f : Filter) (n : Node) : Bool :=
  f.conditions.all (·.accepts n)

end TreeQuery
