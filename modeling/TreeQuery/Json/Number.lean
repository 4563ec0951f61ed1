import TreeQuery.Json.Fault

namespace TreeQuery.Json

-- The value of a number without its sign is `significand * 10 ^ exponent`. Digits that no longer
-- fit into 64 bits are dropped, where those before the point still count for the exponent.
structure Magnitude where
  significand : Nat
  exponent    : Int

namespace Magnitude

-- Appends a digit if it fits.
def push? (m : Magnitude) (digit : Nat) : Option Nat :=
  let significand := m.significand * 10 + digit
  if significand < Nat.pow 2 64 then some significand else none

def pushWhole (m : Magnitude) : List Nat → Magnitude
  | []      => m
  | d :: ds =>
    match m.push? d with
    | some significand => pushWhole { m with significand } ds
    | none             => { m with exponent := m.exponent + (d :: ds).length }

def pushFraction (m : Magnitude) : List Nat → Magnitude
  | []      => m
  | d :: ds =>
    match m.push? d with
    | some significand => pushFraction { significand, exponent := m.exponent - 1 } ds
    | none             => m

-- Rounds to 53 binary digits, a tie to the even neighbour.
def round53 (n : Nat) : Nat :=
  let unit := Nat.pow 2 (n.log2 - 52)
  let (q, r) := (n / unit, n % unit)
  if unit < 2 * r ∨ (2 * r = unit ∧ q % 2 = 1) then (q + 1) * unit else q * unit

-- Whether the number is too large for a double. The two factors are rounded on their own, and their
-- product is infinite from half a unit above the largest double.
def isHuge (m : Magnitude) : Bool :=
  m.significand ≠ 0 && 0 ≤ m.exponent &&
    (308 < m.exponent ||
      Nat.pow 2 1024 - Nat.pow 2 970 ≤
        round53 m.significand * round53 (Nat.pow 10 m.exponent.toNat))

end Magnitude

def digit? (c : Char) : Option Nat :=
  if '0' ≤ c ∧ c ≤ '9' then some (c.toNat - 48) else none

def isDigit (c : Char) : Bool :=
  '0' ≤ c && c ≤ '9'

def digits (cs : List Char) : List Nat :=
  (cs.takeWhile isDigit).filterMap digit?

def afterDigits (cs : List Char) : List Char :=
  cs.dropWhile isDigit

-- What is wrong where a digit is missing.
def missingDigit : List Char → Fault
  | []     => .cutOff
  | _ :: _ => .malformed

-- A number is never what is expected. It is read all the same, since a number that is not well
-- formed or too large is the greater fault. The functions below get the text behind the part in
-- their name.
namespace Number

def afterExponentSign (m : Magnitude) (negative : Bool) (cs : List Char) : Fault :=
  match digits cs with
  | [] => missingDigit cs
  | ds =>
    let size : Nat := ds.foldl (fun n d => n * 10 + d) 0
    let exponent : Int := if negative then m.exponent - size else m.exponent + size
    if { m with exponent }.isHuge then .malformed else .mismatch

def afterExponentMark (m : Magnitude) : List Char → Fault
  | '+' :: cs => afterExponentSign m false cs
  | '-' :: cs => afterExponentSign m true cs
  | cs        => afterExponentSign m false cs

def afterFraction (m : Magnitude) : List Char → Fault
  | 'e' :: cs | 'E' :: cs => afterExponentMark m cs
  | _                     => if m.isHuge then .malformed else .mismatch

def afterPoint (m : Magnitude) (cs : List Char) : Fault :=
  match digits cs with
  | [] => missingDigit cs
  | ds => afterFraction (m.pushFraction ds) (afterDigits cs)

def afterWhole (m : Magnitude) : List Char → Fault
  | '.' :: cs => afterPoint m cs
  | cs        => afterFraction m cs

-- A leading zero stands alone.
def afterSign (cs : List Char) : Fault :=
  match digits cs with
  | []          => missingDigit cs
  | 0 :: _ :: _ => .malformed
  | ds          => afterWhole (Magnitude.pushWhole ⟨0, 0⟩ ds) (afterDigits cs)

end Number
end TreeQuery.Json
