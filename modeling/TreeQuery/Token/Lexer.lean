import TreeQuery.Token

namespace TreeQuery

inductive LexFault
  | invalidEscape (c : Char)
  | unterminated
  | loneTilde
  | unexpected (c : Char)
deriving DecidableEq

def LexFault.message : LexFault → String
  | invalidEscape c => s!"Invalid escape sequence '\\{c}'"
  | unterminated    => "Unterminated string literal"
  | loneTilde       => "Unexpected '~' (did you mean '~~'?)"
  | unexpected c    => s!"Unexpected character '{c}'"

-- Positions count characters from the start of the text. A fault is placed at the character to
-- blame: the backslash of an escape, or the opening quote of a text that never ends.
structure LexError where
  fault    : LexFault
  position : Nat
deriving DecidableEq

def LexError.message (e : LexError) : String :=
  s!"{e.fault.message} at position {e.position}"

-- What stands after an opening quote.
inductive Quotation
  | closed (text : List Char) (length : Nat)
  | invalidEscape (c : Char) (offset : Nat)
  | unclosed (length : Nat)

namespace Quotation

-- The quotation behind `width` more characters of the text, which stand for `c`.
def push (c : Char) (width : Nat) : Quotation → Quotation
  | closed text length     => closed (c :: text) (width + length)
  | invalidEscape d offset => invalidEscape d (width + offset)
  | unclosed length        => unclosed (width + length)

-- The length of a closed quotation includes the closing quote. The offset of an invalid escape is
-- that of its backslash.
def read : List Char → Quotation
  | []                 => unclosed 0
  | '\'' :: _          => closed [] 1
  | ['\\']             => unclosed 1
  | '\\' :: '\'' :: cs => push '\'' 2 (read cs)
  | '\\' :: '\\' :: cs => push '\\' 2 (read cs)
  | '\\' :: c :: _     => invalidEscape c 0
  | c :: cs            => push c 1 (read cs)

end Quotation

-- What stands at the head of a text without leading blanks: a token or a fault, the fault's offset,
-- and the number of characters that reading it uses up.
inductive Scan
  | token (t : Token) (length : Nat)
  | fault (f : LexFault) (offset length : Nat)

namespace Scan

def ofQuotation : Quotation → Scan
  | .closed text length     => token (.quoted (String.ofList text)) (1 + length)
  | .invalidEscape c offset => fault (.invalidEscape c) (1 + offset) (2 + offset)
  | .unclosed length        => fault .unterminated 0 (1 + length)

def ofWord (word : List Char) : Scan :=
  token (.identifier (String.ofList word)) word.length

-- A character that cannot start a token is not used up, so it is met again by the next scan.
def read : List Char → Scan
  | []              => token .endOfInput 0
  | '/' :: _        => token .slash 1
  | '|' :: _        => token .pipe 1
  | '{' :: _        => token .openBrace 1
  | '}' :: _        => token .closeBrace 1
  | ',' :: _        => token .comma 1
  | '=' :: _        => token .equals 1
  | '*' :: '*' :: _ => token .doubleStar 2
  | '*' :: _        => token .star 1
  | '.' :: '.' :: _ => token .dotDot 2
  | '.' :: _        => token .dot 1
  | '~' :: '~' :: _ => token .placeholder 2
  | '~' :: _        => fault .loneTilde 0 0
  | '\'' :: cs      => ofQuotation (.read cs)
  | c :: cs         =>
    if isWordStart c then
      ofWord (c :: cs.takeWhile isWordChar)
    else
      fault (.unexpected c) 0 0

theorem length_pos_of_read_eq_token {cs t n} (h : read cs = token t n) (ht : t ≠ .endOfInput) :
    cs ≠ [] ∧ 0 < n := by
  unfold read at h
  split at h <;> try first | contradiction | (cases h; simp at ht ⊢)
  case _ cs =>
    cases hq : Quotation.read cs <;> simp [hq, ofQuotation] at h
    simp; omega
  case _ =>
    split at h <;> simp [ofWord] at h
    simp; omega

end Scan

structure Lexer where
  rest       : List Char
  offset     : Nat
  tokenStart : Nat

namespace Lexer

def ofText (text : String) : Lexer where
  rest       := text.toList
  offset     := 0
  tokenStart := 0

def skip (l : Lexer) (n : Nat) : Lexer :=
  { l with rest := l.rest.drop n, offset := l.offset + n }

def skipBlanks (l : Lexer) : Lexer :=
  l.skip (l.rest.takeWhile isBlank).length

-- Moves to the next token and notes where it starts.
def seek (l : Lexer) : Lexer :=
  { l.skipBlanks with tokenStart := l.skipBlanks.offset }

-- Lexers can be used on after an error: the text that led to the error counts as read, as far as it
-- was read.
def next (l : Lexer) : Except LexError Token × Lexer :=
  match Scan.read l.seek.rest with
  | .token t n   => (.ok t, l.seek.skip n)
  | .fault f k n => (.error ⟨f, l.seek.offset + k⟩, l.seek.skip n)

theorem length_seek_le (l : Lexer) : l.seek.rest.length ≤ l.rest.length := by
  simp [seek, skipBlanks, skip]

theorem length_next_lt {l l' : Lexer} {t} (h : l.next = (.ok t, l')) (ht : t ≠ .endOfInput) :
    l'.rest.length < l.rest.length := by
  unfold next at h
  split at h <;> cases h
  case _ n hs =>
    have ⟨hc, hn⟩ := Scan.length_pos_of_read_eq_token hs ht
    have := l.length_seek_le
    have := List.length_pos_iff.mpr hc
    simp [skip]
    omega

-- All tokens up to and including the end of input.
def tokens (l : Lexer) : Except LexError (List Token) :=
  match _h : l.next with
  | (.error e, _) => .error e
  | (.ok t, l')   => if _ht : t = .endOfInput then .ok [t] else l'.tokens.map (t :: ·)
termination_by l.rest.length
decreasing_by exact length_next_lt _h _ht

end Lexer

def tokenize (text : String) : Except LexError (List Token) :=
  (Lexer.ofText text).tokens

end TreeQuery
