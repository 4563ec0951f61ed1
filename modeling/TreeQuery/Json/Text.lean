import TreeQuery.Json.Fault

namespace TreeQuery.Json

def hexDigit? (c : Char) : Option Nat :=
  if '0' ≤ c ∧ c ≤ '9' then some (c.toNat - 48)
  else if 'a' ≤ c ∧ c ≤ 'f' then some (c.toNat - 87)
  else if 'A' ≤ c ∧ c ≤ 'F' then some (c.toNat - 55)
  else none

-- Reads four hexadecimal digits. Whether a text is too short for them is a matter of its bytes.
def readUnit (cs : List Char) : Except Fault Nat :=
  match cs.take 4 with
  | [a, b, c, d] =>
    match hexDigit? a, hexDigit? b, hexDigit? c, hexDigit? d with
    | some a, some b, some c, some d => .ok (((a * 16 + b) * 16 + c) * 16 + d)
    | _, _, _, _                     => .error .malformed
  | short => .error <| if (String.ofList short).utf8ByteSize < 4 then .cutOff else .malformed

def isHighSurrogate (unit : Nat) : Bool :=
  0xd800 ≤ unit && unit ≤ 0xdbff

def isLowSurrogate (unit : Nat) : Bool :=
  0xdc00 ≤ unit && unit ≤ 0xdfff

-- Reads what stands behind `\u`: the units of one character. Surrogates must come in pairs.
def readUnits (cs : List Char) : Except Fault (Char × Nat) := do
  let high ← readUnit cs
  if isLowSurrogate high then
    throw .malformed
  else if isHighSurrogate high then
    match cs.drop 4 with
    | [] | ['\\']          => throw .cutOff
    | '\\' :: 'u' :: rest =>
      let low ← readUnit rest
      if isLowSurrogate low then
        return (Char.ofNat (0x10000 + (high - 0xd800) * 0x400 + (low - 0xdc00)), 10)
      else
        throw .malformed
    | _                   => throw .malformed
  else
    return (Char.ofNat high, 4)

-- Reads what stands behind a backslash and returns the character with the length of its spelling.
def readEscape : List Char → Except Fault (Char × Nat)
  | []         => .error .cutOff
  | '"' :: _   => .ok ('"', 1)
  | '\\' :: _  => .ok ('\\', 1)
  | '/' :: _   => .ok ('/', 1)
  | 'b' :: _   => .ok ('\x08', 1)
  | 'f' :: _   => .ok ('\x0c', 1)
  | 'n' :: _   => .ok ('\n', 1)
  | 'r' :: _   => .ok ('\r', 1)
  | 't' :: _   => .ok ('\t', 1)
  | 'u' :: cs  => (readUnits cs).map fun (c, length) => (c, length + 1)
  | _          => .error .malformed

-- Reads the inside of a text up to its closing quote and returns what follows.
def readText : List Char → Except Fault (List Char × List Char)
  | []      => .error .cutOff
  | c :: cs =>
    if c = '"' then
      .ok ([], cs)
    else if c = '\\' then
      match readEscape cs with
      | .error f        => .error f
      | .ok (d, length) => (readText (cs.drop length)).map fun (text, rest) => (d :: text, rest)
    else if c.toNat < 0x20 then
      .error .malformed
    else
      (readText cs).map fun (text, rest) => (c :: text, rest)
termination_by cs => cs.length
decreasing_by all_goals simp; try omega

theorem length_lt_of_readText {cs text rest} (h : readText cs = .ok (text, rest)) :
    rest.length < cs.length := by
  fun_induction readText cs generalizing text rest
  all_goals try contradiction
  case case2 => cases h; simp
  case case4 hi =>
    simp only [Except.map] at h
    split at h <;> cases h
    have := hi ‹_›
    simp at this ⊢
    omega
  case case6 hi =>
    simp only [Except.map] at h
    split at h <;> cases h
    have := hi ‹_›
    simp
    omega

end TreeQuery.Json
