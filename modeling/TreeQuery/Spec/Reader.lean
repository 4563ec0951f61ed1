import TreeQuery.Json.Reader
import TreeQuery.Spec

namespace TreeQuery.Spec

open Json

inductive Field
  | name
  | kind
  | variant
  | version
  | attributes
  | children
deriving DecidableEq

def Field.ofKey? : String → Option Field
  | "name"       => some name
  | "type"       => some kind
  | "variant"    => some variant
  | "version"    => some version
  | "attributes" => some attributes
  | "children"   => some children
  | _            => none

-- The fields of a node that have been read so far.
structure Draft where
  name       : Option String
  kind       : Option (Option String)
  variant    : Option (Option String)
  version    : Option (Option String)
  attributes : Option Attributes
  children   : Option (List Spec)

namespace Draft

def empty : Draft where
  name       := none
  kind       := none
  variant    := none
  version    := none
  attributes := none
  children   := none

def has (d : Draft) : Field → Bool
  | .name       => d.name.isSome
  | .kind       => d.kind.isSome
  | .variant    => d.variant.isSome
  | .version    => d.version.isSome
  | .attributes => d.attributes.isSome
  | .children   => d.children.isSome

-- Only the name of a node has no default.
def finish (d : Draft) : Except Fault Spec :=
  match d.name with
  | none      => .error .mismatch
  | some name => .ok {
      name
      kind       := d.kind.join
      variant    := d.variant.join
      version    := d.version.join
      attributes := d.attributes.getD .empty
      children   := d.children.getD []
    }

end Draft

def entry (as : Attributes) : Reader Attributes :=
  Reader.key.bind fun key =>
    Reader.colon.bind fun _ =>
      Reader.text.map fun value => as.insert key value

variable (attributes : Reader Attributes) (children : Reader (List Spec))

def fieldValue (d : Draft) : Field → Reader Draft
  | .name       => Reader.text.map fun name => { d with name := some name }
  | .kind       => Reader.nullableText.map fun kind => { d with kind := some kind }
  | .variant    => Reader.nullableText.map fun variant => { d with variant := some variant }
  | .version    => Reader.nullableText.map fun version => { d with version := some version }
  | .attributes => attributes.map fun attributes => { d with attributes := some attributes }
  | .children   => children.map fun children => { d with children := some children }

-- A field that is unknown or repeated is refused before its value is read.
def member (d : Draft) : Reader Draft :=
  Reader.key.bind fun key =>
    match Field.ofKey? key with
    | none   => .fail .mismatch
    | some f =>
      if d.has f then
        .fail .mismatch
      else
        Reader.colon.bind fun _ => fieldValue attributes children d f

-- Reads the values of fields that are given by their place in an array.
def readInOrder (isFirst : Bool) (d : Draft) :
    List Field → List Char → Except Fault (Draft × List Char)
  | [],      cs =>
    match skipBlanks cs with
    | []          => .error .cutOff
    | ']' :: rest => .ok (d, rest)
    | _           => .error .malformed
  | f :: fs, cs =>
    match nextItem ']' isFirst cs with
    | .error e         => .error e
    | .ok (.done rest) => .ok (d, rest)
    | .ok (.item cs')  =>
      match (fieldValue attributes children d f).read cs' with
      | .error e       => .error e
      | .ok (d', rest) => readInOrder false d' fs rest

theorem length_lt_of_readInOrder {isFirst d fs cs d' rest}
    (h : readInOrder attributes children isFirst d fs cs = .ok (d', rest)) :
    rest.length < cs.length := by
  fun_induction readInOrder attributes children isFirst d fs cs
  all_goals try contradiction
  case case2 hs =>
    cases h
    have := hs ▸ length_skipBlanks_le _
    simp at this
    omega
  case case5 hn => cases h; exact length_lt_of_nextItem_eq_done hn
  case case7 hn _ _ hr hi =>
    have := length_le_of_nextItem_eq_item hn
    have := Reader.length_read _ hr
    have := hi h
    omega

-- A node is an object, or an array of the values of its fields.
def readNode (isTooDeep : Bool) : List Char → Except Fault (Spec × List Char)
  | '{' :: cs => do
    if isTooDeep then throw .malformed
    let (d, rest) ← Reader.readItems '}' (member attributes children) true .empty cs
    return (← d.finish, rest)
  | '[' :: cs => do
    if isTooDeep then throw .malformed
    let (d, rest) ← readInOrder attributes children true .empty
      [.name, .kind, .variant, .version, .attributes, .children] cs
    return (← d.finish, rest)
  | cs        => .error (otherValue cs)

theorem length_lt_of_readNode {isTooDeep cs s rest}
    (h : readNode attributes children isTooDeep cs = .ok (s, rest)) : rest.length < cs.length := by
  unfold readNode at h
  split at h
  case h_3 => contradiction
  all_goals
    refine Nat.lt_succ_of_lt ?_
    cases isTooDeep
    case true => contradiction
    simp only [bind, Except.bind, pure, Except.pure, Bool.false_eq_true, if_false] at h
    split at h
    case h_1 => contradiction
    split at h <;> cases h
    first
      | exact Reader.length_lt_of_readItems ‹_›
      | exact length_lt_of_readInOrder _ _ ‹_›

def node (isTooDeep : Bool) : Reader Spec :=
  Reader.afterBlanks (readNode attributes children isTooDeep)
    (length_lt_of_readNode attributes children)

def attributesAt (depth : Nat) : Reader Attributes :=
  Reader.container '{' '}' (depth = 0) entry .empty

-- Readers for documents whose arrays and objects are nested `depth` times at most.
mutual

def nodeAt : Nat → Reader Spec
  | 0         => node (attributesAt 0) (.fail .malformed) true
  | depth + 1 => node (attributesAt depth) (childrenAt depth) false

def childrenAt : Nat → Reader (List Spec)
  | 0         => .container '[' ']' true (fun _ => .fail .malformed) []
  | depth + 1 => .container '[' ']' false (fun specs => (nodeAt depth).map (specs ++ [·])) []

end

def maxDepth : Nat := 127

def ofJson (text : String) : Except Fault Spec := do
  let (s, rest) ← (nodeAt maxDepth).read text.toList
  if (skipBlanks rest).isEmpty then return s else throw .malformed

end TreeQuery.Spec
