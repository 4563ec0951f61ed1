import TreeQuery.Evaluation
import TreeQuery.Selector.Parser

namespace TreeQuery

-- Parses a selector and reports each alternative that was dropped.
def Selector.ofText (text : String) : Except SyntaxError (Selector × List Event) := do
  match Parser.ofLexer <| .ofText text with
  | .error e => throw <| .lex e
  | .ok p    =>
    match p.parse with
    | (.error e, _) => throw e
    | (.ok s, p')   => return (s, p'.recovered.map (.skippedAlternative text))

namespace Tree

-- A selector that cannot be parsed selects nothing and is reported.
def query (t : Tree) (text : String) : Option Answer :=
  if text.isEmpty then
    some { found := [], log := [] }
  else
    match Selector.ofText text with
    | .error e        => some { found := [], log := [.invalidSelector text e] }
    | .ok (s, events) => do
      let answer ← t.evaluate s
      return { answer with log := events ++ answer.log }

end Tree

inductive SelectError
  | absentText
  | danglingId

def SelectError.message : SelectError → String
  | absentText => "Invalid argument: selector text is absent"
  | danglingId => "a link of the tree leads to a node that is not in the tree"

namespace Tree

def select (t : Tree) : Option String → Except SelectError Answer
  | none      => .error .absentText
  | some text => (t.query text).elim (.error .danglingId) .ok

def selectNodes (t : Tree) (text : Option String) : Except SelectError (List Node) := do
  let answer ← t.select text
  (answer.found.mapM t.get?).elim (.error .danglingId) .ok

end Tree
end TreeQuery
