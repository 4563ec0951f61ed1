import Mathlib.Data.List.Forall2
import TreeQuery.Json.Reader

-- How JSON values can be written down.
namespace TreeQuery.Json

def Blanks (gap : List Char) : Prop :=
  ∀ c ∈ gap, isBlank c

-- The letters behind a backslash that stand for one character.
def shortEscapes : List (Char × Char) :=
  [('"', '"'), ('\\', '\\'), ('/', '/'), ('b', '\x08'), ('f', '\x0c'), ('n', '\n'), ('r', '\r'),
    ('t', '\t')]

-- Four hexadecimal digits, each in lower or upper case.
def UnitSpelled (unit : Nat) (digits : List Char) : Prop :=
  List.Forall₂ (fun d c => hexDigit? c = some d)
    [unit / 0x1000, unit / 0x100 % 0x10, unit / 0x10 % 0x10, unit % 0x10] digits

-- A character inside a text stands for itself or is escaped. Characters that do not fit into one
-- unit are escaped as a pair of surrogates.
inductive CharSpelled : Char → List Char → Prop
  | plain {c : Char} : c ≠ '"' → c ≠ '\\' → (0x20 ≤ c.toNat) → CharSpelled c [c]
  | short {c letter : Char} : (letter, c) ∈ shortEscapes → CharSpelled c ['\\', letter]
  | unit {c : Char} {digits : List Char} :
    UnitSpelled c.toNat digits → CharSpelled c ('\\' :: 'u' :: digits)
  | pair {c : Char} {high low : List Char} :
    (0x10000 ≤ c.toNat) →
    UnitSpelled (0xd800 + (c.toNat - 0x10000) / 0x400) high →
    UnitSpelled (0xdc00 + (c.toNat - 0x10000) % 0x400) low →
    CharSpelled c ('\\' :: 'u' :: high ++ '\\' :: 'u' :: low)

inductive Quoted : String → List Char → Prop
  | mk {s : String} {pieces : List (List Char)} :
    List.Forall₂ CharSpelled s.toList pieces → Quoted s ('"' :: pieces.flatten ++ ['"'])

-- The parts of a number. A leading zero stands alone.

def Digits (cs : List Char) : Prop :=
  cs ≠ [] ∧ ∀ c ∈ cs, isDigit c

inductive Fraction : List Char → Prop
  | absent : Fraction []
  | point {cs : List Char} : Digits cs → Fraction ('.' :: cs)

inductive Exponent : List Char → Prop
  | absent : Exponent []
  | mark {mark : Char} {sign cs : List Char} :
    mark ∈ ['e', 'E'] → sign ∈ [[], ['+'], ['-']] → Digits cs → Exponent (mark :: sign ++ cs)

inductive Number : List Char → Prop
  | mk {sign whole fraction exponent : List Char} :
    sign ∈ [[], ['-']] → Digits whole → (whole.head? = some '0' → whole = ['0']) →
    Fraction fraction → Exponent exponent → Number (sign ++ whole ++ fraction ++ exponent)

-- Items with commas between them, from behind an item or, for the first one, from behind the
-- bracket. Blanks can stand around each of them.
inductive Items {α : Type} (spelled : α → List Char → Prop) : Bool → List α → List Char → Prop
  | done {isFirst : Bool} {gap : List Char} : Blanks gap → Items spelled isFirst [] gap
  | first {x : α} {xs : List α} {gap cs rest : List Char} :
    Blanks gap → spelled x cs → Items spelled false xs rest →
    Items spelled true (x :: xs) (gap ++ cs ++ rest)
  | next {x : α} {xs : List α} {gap gap' cs rest : List Char} :
    Blanks gap → Blanks gap' → spelled x cs → Items spelled false xs rest →
    Items spelled false (x :: xs) (gap ++ ',' :: gap' ++ cs ++ rest)

-- The value of a number is never looked at.
inductive Value
  | null
  | boolean (b : Bool)
  | number
  | text (s : String)
  | array (items : List Value)
  | object (members : List (String × Value))

inductive MemberSpelled (spelled : Value → List Char → Prop) : String × Value → List Char → Prop
  | mk {key : String} {v : Value} {ks gap gap' cs : List Char} :
    Quoted key ks → Blanks gap → Blanks gap' → spelled v cs →
    MemberSpelled spelled (key, v) (ks ++ gap ++ ':' :: gap' ++ cs)

namespace Value

inductive Spelled : Value → List Char → Prop
  | null : Spelled .null ['n', 'u', 'l', 'l']
  | isTrue : Spelled (.boolean true) ['t', 'r', 'u', 'e']
  | isFalse : Spelled (.boolean false) ['f', 'a', 'l', 's', 'e']
  | number {cs : List Char} : Number cs → Spelled .number cs
  | text {s : String} {cs : List Char} : Quoted s cs → Spelled (.text s) cs
  | array {vs : List Value} {cs : List Char} :
    Items Spelled true vs cs → Spelled (.array vs) ('[' :: cs ++ [']'])
  | object {ms : List (String × Value)} {cs : List Char} :
    Items (MemberSpelled Spelled) true ms cs → Spelled (.object ms) ('{' :: cs ++ ['}'])

-- A document is one value with blanks around it.
inductive SpelledBy (v : Value) (text : String) : Prop
  | mk {gap cs gap' : List Char} :
    Blanks gap → v.Spelled cs → Blanks gap' → (text.toList = gap ++ cs ++ gap') → SpelledBy v text

-- How deep arrays and objects are nested.
mutual

def depth : Value → Nat
  | array vs  => depthOfItems vs + 1
  | object ms => depthOfMembers ms + 1
  | _         => 0

def depthOfItems : List Value → Nat
  | []      => 0
  | v :: vs => max v.depth (depthOfItems vs)

def depthOfMembers : List (String × Value) → Nat
  | []           => 0
  | (_, v) :: ms => max v.depth (depthOfMembers ms)

end

theorem depthOfItems_le_iff {vs : List Value} {n : Nat} :
    depthOfItems vs ≤ n ↔ ∀ v ∈ vs, v.depth ≤ n := by
  induction vs
  case nil => simp [depthOfItems]
  case cons hi => rw [depthOfItems, Nat.max_le, hi, List.forall_mem_cons]

theorem depthOfMembers_eq {ms : List (String × Value)} :
    depthOfMembers ms = depthOfItems (ms.map Prod.snd) := by
  induction ms
  case nil => rw [depthOfMembers, List.map_nil, depthOfItems]
  case cons hi => rw [depthOfMembers, List.map_cons, depthOfItems, hi]

end Value
end TreeQuery.Json
