import TreeQuery.Command.Line

open TreeQuery

def main (args : List String) : IO UInt32 := do
  let outcome ← match Command.ofArguments args with
    | .error stop => pure stop.outcome
    | .ok c       => do
      let input ← if c.readsInput then (← IO.getStdin).readToEnd else pure ""
      pure (c.run input)
  IO.print outcome.output
  IO.eprint outcome.errors
  return outcome.exitCode
