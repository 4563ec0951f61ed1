import TreeQuery.Command.Arguments
import TreeQuery.Command.Demo
import TreeQuery.Command.Reference

namespace TreeQuery

-- What a run of the program leaves behind.
structure Outcome where
  exitCode : UInt32
  output   : String
  errors   : String
deriving DecidableEq

namespace Outcome

def success (output : String) : Outcome where
  exitCode := 0
  output   := output
  errors   := ""

def failure (message : String) : Outcome where
  exitCode := 1
  output   := ""
  errors   := message ++ "\n"

def ofResult : Except CommandError String → Outcome
  | .ok output => success output
  | .error e   => failure e.message

end Outcome

def usageText : String :=
  "treesel - select nodes from labeled trees with path expressions\n\n" ++
  "Usage: treesel <COMMAND>\n\n" ++
  "Commands:\n" ++
  "  check <SELECTOR> [-i <INPUT>] [-p] [--syntax-only]\n" ++
  "  tree [-i <INPUT>]\n" ++
  "  demo\n" ++
  "  docs\n" ++
  "  help\n"

def Stop.outcome : Stop → Outcome
  | usage   => { exitCode := 2, output := "", errors := usageText }
  | help    => .success usageText
  | version => .success "treesel 0.1.0\n"

def CheckResult.text : CheckResult → String
  | validSyntax canonical => s!"Syntax is valid: {canonical}\n"
  | success json          => json ++ "\n"

namespace Command

-- Without a tree among its arguments, a command reads the tree from its standard input.
def readsInput : Command → Bool
  | check o   => o.input.isNone && !o.syntaxOnly
  | tree none => true
  | _         => false

def run (input : String) : Command → Outcome
  | check o         =>
    let o := if readsInput (check o) then { o with input := some input } else o
    .ofResult <| (TreeQuery.check o).map CheckResult.text
  | tree given      => .ofResult <| drawInput (given.getD input)
  | demo            => .success TreeQuery.demo
  | reference       => .success syntaxReference

end Command

def runArguments (args : List String) (input : String) : Outcome :=
  match Command.ofArguments args with
  | .error stop => stop.outcome
  | .ok c       => c.run input

end TreeQuery
