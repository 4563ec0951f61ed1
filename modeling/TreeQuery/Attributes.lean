namespace TreeQuery

-- Attributes are listed in the order in which their keys were first set.
structure Attributes where
  entries    : List (String × String)
  nodup_keys : (entries.map Prod.fst).Nodup
deriving DecidableEq

namespace Attributes

def empty : Attributes where
  entries    := []
  nodup_keys := List.nodup_nil

def get? (as : Attributes) (key : String) : Option String :=
  as.entries.lookup key

-- Sets the value of a key in place, or adds a key at the end.
def put (key value : String) : List (String × String) → List (String × String)
  | []             => [(key, value)]
  | (k, v) :: rest => if k = key then (k, value) :: rest else (k, v) :: put key value rest

theorem keys_put {key value : String} (entries : List (String × String)) :
    (put key value entries).map Prod.fst =
      if key ∈ entries.map Prod.fst then entries.map Prod.fst
      else entries.map Prod.fst ++ [key] := by
  induction entries
  case nil => simp [put]
  case cons entry rest hi =>
    by_cases h : entry.1 = key
    case pos => simp [put, h]
    case neg =>
      simp only [put, h, if_false, List.map_cons, hi, List.mem_cons, Ne.symm h, false_or]
      split <;> simp

theorem nodup_keys_put {key value : String} {entries : List (String × String)}
    (h : (entries.map Prod.fst).Nodup) : ((put key value entries).map Prod.fst).Nodup := by
  rw [keys_put]
  split
  case isTrue  => exact h
  case isFalse => grind

def insert (as : Attributes) (key value : String) : Attributes where
  entries    := put key value as.entries
  nodup_keys := nodup_keys_put as.nodup_keys

-- A repeated key keeps its first place and takes the last value.
def ofList (entries : List (String × String)) : Attributes :=
  entries.foldl (fun as (key, value) => as.insert key value) empty

-- Equality up to the order of the entries.
def agree (as bs : Attributes) : Bool :=
  as.entries.length = bs.entries.length &&
    as.entries.all fun (key, value) => bs.get? key = some value

end Attributes
end TreeQuery
