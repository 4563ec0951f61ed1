import TreeQuery.Token
import TreeQuery.Selector

namespace TreeQuery

-- The canonical text of a selector has no blanks and quotes a text only if it is not a word.
def render (tokens : List Token) : String :=
  String.ofList <| tokens.flatMap Token.spelling

def Value.token : Value → Token
  | any          => .star
  | exactly text => .ofText text

def Condition.tokens (c : Condition) : List Token :=
  [.ofText c.key, .equals, c.value.token]

def Filter.tokens (f : Filter) : List Token :=
  .openBrace :: [.comma].intercalate (f.conditions.map Condition.tokens) ++ [.closeBrace]

def Step.token : Step → Token
  | named name  => .identifier name
  | wildcard    => .star
  | descendants => .placeholder
  | current     => .dot
  | parent      => .dotDot

def Segment.tokens (s : Segment) : List Token :=
  s.step.token :: s.filter.elim [] Filter.tokens

def Segment.text (s : Segment) : String :=
  render s.tokens

def Anchor.tokens : Anchor → List Token
  | root     => [.slash]
  | anywhere => [.doubleStar, .slash]

def Alternative.tokens (a : Alternative) : List Token :=
  a.anchor.tokens ++ a.first.tokens ++ a.path.flatMap (.slash :: ·.tokens)

def Alternative.text (a : Alternative) : String :=
  render a.tokens

def Selector.tokens (s : Selector) : List Token :=
  [.pipe].intercalate (s.alternatives.map Alternative.tokens)

def Selector.text (s : Selector) : String :=
  render s.tokens

end TreeQuery
