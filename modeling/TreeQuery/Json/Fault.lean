namespace TreeQuery.Json

-- Why a text is not the document that is expected: it is not JSON, it ends too early, or it is JSON
-- so far but holds something else.
inductive Fault
  | malformed
  | cutOff
  | mismatch
deriving DecidableEq

def isBlank (c : Char) : Bool :=
  c = ' ' || c = '\n' || c = '\t' || c = '\r'

def skipBlanks (cs : List Char) : List Char :=
  cs.dropWhile isBlank

theorem length_skipBlanks_le (cs : List Char) : (skipBlanks cs).length ≤ cs.length :=
  (List.dropWhile_sublist _).length_le

-- Reads the rest of a word and returns what follows it.
def readWord : List Char → List Char → Except Fault (List Char)
  | [],     cs      => .ok cs
  | _ :: _, []      => .error .cutOff
  | w :: ws, c :: cs => if c = w then readWord ws cs else .error .malformed

theorem length_le_of_readWord {ws cs rest} (h : readWord ws cs = .ok rest) :
    rest.length ≤ cs.length := by
  induction ws generalizing cs
  case nil => cases h; simp
  case cons w ws hi =>
    cases cs <;> simp only [readWord] at h
    case nil => contradiction
    case cons c cs =>
      split at h
      case isTrue  => exact Nat.le_succ_of_le (hi h)
      case isFalse => contradiction

end TreeQuery.Json
