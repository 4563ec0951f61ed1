import TreeQuery.Tree

namespace TreeQuery

-- The nodes that a traversal has reached. A node counts as reached if its stamp is the number of
-- the current round, so a new traversal starts by counting up instead of by clearing the table. Ids
-- outside of the table always count as reached.
structure Visits where
  stamps : Array UInt32
  round  : UInt32

namespace Visits

def ofSize (size : Nat) : Visits where
  stamps := .replicate size 0
  round  := 0

def ofTree (t : Tree) : Visits :=
  ofSize t.size

-- The table is cleared only when all numbers of rounds have been used.
def newRound (v : Visits) : Visits :=
  if v.round + 1 = 0 then
    { stamps := v.stamps.map fun _ => 0, round := 1 }
  else
    { v with round := v.round + 1 }

def isOpen (v : Visits) (id : Nat) : Bool :=
  v.stamps[id]?.any (· ≠ v.round)

def mark (v : Visits) (id : Nat) : Visits :=
  { v with stamps := v.stamps.setIfInBounds id v.round }

def countOpen (v : Visits) : Nat :=
  v.stamps.countP (· ≠ v.round)

theorem isOpen_iff {v : Visits} {id} :
    v.isOpen id ↔ ∃ h : id < v.stamps.size, v.stamps[id] ≠ v.round := by
  by_cases h : id < v.stamps.size <;> simp [isOpen, h]

theorem countOpen_mark_lt {v : Visits} {id} (h : v.isOpen id) :
    (v.mark id).countOpen < v.countOpen := by
  have ⟨hb, hr⟩ := isOpen_iff.mp h
  have hp : 0 < v.stamps.countP (· ≠ v.round) :=
    Array.countP_pos_iff.mpr ⟨_, Array.getElem_mem hb, by simpa using hr⟩
  have hm : decide (v.round ≠ v.round) = false := by simp
  simp only [countOpen, mark, Array.setIfInBounds, hb, dite_true, Array.countP_set,
    decide_eq_true hr, hm, if_true, reduceCtorEq, if_false]
  omega

end Visits

namespace Tree

-- The nodes on the stack and everything below them, in pre-order, without the nodes that have been
-- reached before.
def collect (t : Tree) (v : Visits) : List Nat → List Nat × Visits
  | []          => ([], v)
  | id :: stack =>
    if v.isOpen id then
      let (ids, v') := t.collect (v.mark id) (t.children id ++ stack)
      (id :: ids, v')
    else
      t.collect v stack
termination_by stack => (v.countOpen, stack.length)
decreasing_by
  · exact Prod.Lex.left _ _ <| Visits.countOpen_mark_lt ‹_›
  · exact Prod.Lex.right _ <| Nat.lt_succ_self _

end Tree
end TreeQuery
