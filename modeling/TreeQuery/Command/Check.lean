import TreeQuery.Query
import TreeQuery.Report
import TreeQuery.Tree.Drawing
import TreeQuery.Tree.Loading

namespace TreeQuery

inductive CommandError
  | selector (e : SyntaxError)
  | load (e : LoadError)
  | noInput
  | danglingId

def CommandError.message : CommandError → String
  | selector e => s!"Parse error: {e.message}"
  | load e     => e.message
  | noInput    => "No input provided. Use --input or pipe a JSON tree to stdin."
  | danglingId => SelectError.danglingId.message

structure CheckOptions where
  selector   : String
  input      : Option String
  layout     : Json.Layout
  syntaxOnly : Bool

inductive CheckResult
  | validSyntax (canonical : String)
  | success (json : String)
deriving DecidableEq

def loadInput : Option String → Except CommandError Tree
  | none      => .error .noInput
  | some text => (Tree.ofJson text).mapError .load

-- Checks a selector and runs it on a tree. Unlike a query, it refuses a selector that cannot be
-- parsed, and it does so before it looks at the tree.
def check (o : CheckOptions) : Except CommandError CheckResult := do
  let (s, _) ← (Selector.ofText o.selector).mapError .selector
  if o.syntaxOnly then
    return .validSyntax s.text
  let t ← loadInput o.input
  match (t.evaluate s).bind fun answer => t.report answer.found with
  | none   => throw .danglingId
  | some d => return .success (d.toText o.layout)

def drawInput (input : Option String) : Except CommandError String :=
  (loadInput input).map Tree.drawing

end TreeQuery
