import TreeQuery.Text.Alphanumeric

namespace TreeQuery

inductive Token
  | identifier (name : String)
  | quoted (text : String)
  | slash
  | doubleStar
  | star
  | placeholder
  | dot
  | dotDot
  | pipe
  | openBrace
  | closeBrace
  | comma
  | equals
  | endOfInput
deriving DecidableEq

-- Versions (`3.2.0`) and hyphenated names (`button-alt`) are single words, but no word starts with
-- a dot: a leading dot is a step of its own.
def isWordStart (c : Char) : Bool :=
  isAlphanumeric c || c == '_' || c == '-'

def isWordChar (c : Char) : Bool :=
  isWordStart c || c == '.'

def isWord : List Char → Bool
  | []      => false
  | c :: cs => isWordStart c && cs.all isWordChar

-- Inside quotes, the quote and the backslash are preceded by a backslash and nothing else is.
def escape (c : Char) : List Char :=
  if c = '\'' ∨ c = '\\' then ['\\', c] else [c]

def quote (text : List Char) : List Char :=
  '\'' :: text.flatMap escape ++ ['\'']

namespace Token

-- The text of a token in a selector.
def spelling : Token → List Char
  | identifier name => name.toList
  | quoted text     => quote text.toList
  | slash           => ['/']
  | doubleStar      => ['*', '*']
  | star            => ['*']
  | placeholder     => ['~', '~']
  | dot             => ['.']
  | dotDot          => ['.', '.']
  | pipe            => ['|']
  | openBrace       => ['{']
  | closeBrace      => ['}']
  | comma           => [',']
  | equals          => ['=']
  | endOfInput      => []

-- How messages name a token.
def describe : Token → String
  | identifier name => s!"identifier '{name}'"
  | quoted text     => s!"string '{text}'"
  | endOfInput      => "end of input"
  | token           => s!"'{String.ofList token.spelling}'"

-- The token that stands for a free text: the text itself if it is a word, a quoted text otherwise.
def ofText (text : String) : Token :=
  if isWord text.toList then identifier text else quoted text

end Token
end TreeQuery
