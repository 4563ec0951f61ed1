import TreeQuery.Token.Lexer

namespace TreeQuery

inductive Expectation
  | slashAfterStars
  | step
  | attributeName
  | equals
  | attributeValue
  | commaOrBrace
  | pipeOrEnd
deriving DecidableEq

def Expectation.describe : Expectation → String
  | slashAfterStars => "'/' after '**'"
  | step            => "node name, '*', '~~', '.' or '..'"
  | attributeName   => "attribute name"
  | equals          => "'='"
  | attributeValue  => "attribute value"
  | commaOrBrace    => "',' or '\x7d'"
  | pipeOrEnd       => "'|' or end of input"

inductive SyntaxError
  | lex (e : LexError)
  | unexpected (expected : Expectation) (found : Token) (position : Nat)
  | missingRoot (position : Nat)
  | empty
deriving DecidableEq

namespace SyntaxError

def position? : SyntaxError → Option Nat
  | lex e             => e.position
  | unexpected _ _ p  => p
  | missingRoot p     => p
  | empty             => none

def message : SyntaxError → String
  | lex e                       => s!"Lex error: {e.message}"
  | unexpected expected found p =>
    s!"Expected {expected.describe}, found {found.describe} at position {p}"
  | missingRoot p               => s!"Selector must start with '/' or '**' at position {p}"
  | empty                       => "Empty selector"

end SyntaxError
end TreeQuery
