import TreeQuery.Selector.Reading

namespace TreeQuery

-- A parser holds the token that is next to be read and a lexer for the tokens behind it.
structure Parser where
  current   : Token
  position  : Nat
  lexer     : Lexer
  recovered : List SyntaxError

namespace Parser

def ofLexer (l : Lexer) : Except LexError Parser :=
  match l.next with
  | (.error e, _) => .error e
  | (.ok t, l')   => .ok { current := t, position := l'.tokenStart, lexer := l', recovered := [] }

-- An upper bound on the number of tokens before the end of input.
def remaining (p : Parser) : Nat :=
  if p.current = .endOfInput then 0 else p.lexer.rest.length + 1

-- Reads up to the end of input or the first lex error. A token that is taken when the error occurs
-- is lost, and the end of input stands in its place.
def run (p : Parser) (r : Reading) : Except LexError Reading × Parser :=
  if _hc : p.current = .endOfInput then
    (.ok <| r.close p.current p.position, p)
  else
    match _hn : p.lexer.next with
    | (.error e, l) =>
      let current := if r.takes p.current then .endOfInput else p.current
      (.error e, { p with current, lexer := l })
    | (.ok t, l) =>
      let r' := r.read p.current p.position
      run { p with current := t, position := l.tokenStart, lexer := l } r'
termination_by p.remaining
decreasing_by
  simp only [remaining, _hc, if_false]
  split
  · omega
  · have := Lexer.length_next_lt _hn ‹_›
    omega

-- Alternatives that fail are dropped as long as one alternative succeeds; `recovered` then lists
-- their errors.
def parse (p : Parser) : Except SyntaxError Selector × Parser :=
  if p.current = .endOfInput then
    (.error .empty, { p with recovered := [] })
  else
    match run { p with recovered := [] } .start with
    | (.error e, p') => (.error <| .lex e, p')
    | (.ok r, p')    =>
      match r.alternatives, r.failures with
      | [],           []       => (.error .empty, p')
      | [],           e :: _   => (.error e, p')
      | alternatives, failures => (.ok { alternatives }, { p' with recovered := failures })

end Parser

def parse (text : String) : Except SyntaxError Selector :=
  match Parser.ofLexer <| .ofText text with
  | .error e => .error <| .lex e
  | .ok p    => p.parse.1

end TreeQuery
