import TreeQuery.Command.Check

namespace TreeQuery

inductive Switch
  | input
  | pretty
  | syntaxOnly
  | help
deriving DecidableEq

namespace Switch

def ofLong? : String → Option Switch
  | "input"       => some input
  | "pretty"      => some pretty
  | "syntax-only" => some syntaxOnly
  | "help"        => some help
  | _             => none

def ofShort? : Char → Option Switch
  | 'i' => some input
  | 'p' => some pretty
  | 'h' => some help
  | _   => none

def takesValue (s : Switch) : Bool :=
  s = input

end Switch

inductive Command
  | check (o : CheckOptions)
  | tree (input : Option String)
  | demo
  | reference

-- Why there is no command to run.
inductive Stop
  | usage
  | help
  | version
deriving DecidableEq

-- What a command can be given: words without a dash in front, and switches.
structure Signature where
  maxWords : Nat
  switches : List Switch

-- The arguments of a command that have been read so far. A switch may wait for its value.
structure Arguments where
  words    : List String
  switches : List (Switch × String)
  waiting  : Option Switch

namespace Arguments

def empty : Arguments where
  words    := []
  switches := []
  waiting  := none

def has (a : Arguments) (s : Switch) : Bool :=
  (a.switches.lookup s).isSome

def addWord (g : Signature) (a : Arguments) (word : String) : Except Stop Arguments :=
  if a.words.length < g.maxWords then .ok { a with words := a.words ++ [word] } else .error .usage

-- No switch is given twice.
def setSwitch (a : Arguments) (s : Switch) (value : String) : Except Stop Arguments :=
  if a.has s then
    .error .usage
  else
    .ok { a with switches := a.switches ++ [(s, value)], waiting := none }

-- Adds a switch that comes without a value of its own.
def addSwitch (a : Arguments) (s : Switch) : Except Stop Arguments :=
  if s = .help then .error .help
  else if s.takesValue then .ok { a with waiting := some s }
  else a.setSwitch s ""

def addLong (g : Signature) (a : Arguments) (text : List Char) : Except Stop Arguments :=
  match (Switch.ofLong? <| String.ofList (text.takeWhile (· ≠ '='))).filter (· ∈ g.switches) with
  | none   => .error .usage
  | some s =>
    match text.dropWhile (· ≠ '=') with
    | []         => a.addSwitch s
    | _ :: value => if s.takesValue then a.setSwitch s (String.ofList value) else .error .usage

-- Short switches can be joined. The rest behind a switch that takes a value is the value.
def addShort (g : Signature) (a : Arguments) : List Char → Except Stop Arguments
  | []      => .ok a
  | c :: cs =>
    match (Switch.ofShort? c).filter (· ∈ g.switches) with
    | none   => .error .usage
    | some s =>
      if s.takesValue then
        match cs with
        | []                 => a.addSwitch s
        | '=' :: rest | rest => a.setSwitch s (String.ofList rest)
      else do
        addShort g (← a.addSwitch s) cs

-- All that follows two dashes are words.
def addAll (g : Signature) (a : Arguments) : List String → Except Stop Arguments
  | []          => if a.waiting.isSome then .error .usage else .ok a
  | arg :: args =>
    match a.waiting, arg.toList with
    | some _, '-' :: _ :: _        => .error .usage
    | some s, _                    => do addAll g (← a.setSwitch s arg) args
    | none,   ['-', '-']           => args.foldlM (addWord g) a
    | none,   '-' :: '-' :: text   => do addAll g (← a.addLong g text) args
    | none,   '-' :: c :: cs       => do addAll g (← a.addShort g (c :: cs)) args
    | none,   _                    => do addAll g (← a.addWord g arg) args

end Arguments

namespace Command

def checkOf (args : List String) : Except Stop Command := do
  let a ← Arguments.empty.addAll ⟨1, [.input, .pretty, .syntaxOnly, .help]⟩ args
  match a.words with
  | []            => throw .usage
  | selector :: _ =>
    return check {
      selector
      input      := a.switches.lookup .input
      layout     := if a.has .pretty then .indented else .compact
      syntaxOnly := a.has .syntaxOnly
    }

def treeOf (args : List String) : Except Stop Command := do
  let a ← Arguments.empty.addAll ⟨0, [.input, .help]⟩ args
  return tree (a.switches.lookup .input)

def plainOf (c : Command) (args : List String) : Except Stop Command := do
  let _ ← Arguments.empty.addAll ⟨0, [.help]⟩ args
  return c

def names : List String := ["check", "tree", "demo", "docs", "help"]

def helpOf : List String → Stop
  | []     => .help
  | [name] => if name ∈ names then .help else .usage
  | _      => .usage

def ofArguments : List String → Except Stop Command
  | []              => .error .usage
  | "check" :: args => checkOf args
  | "tree" :: args  => treeOf args
  | "demo" :: args  => plainOf demo args
  | "docs" :: args  => plainOf reference args
  | "help" :: args  => .error (helpOf args)
  | arg :: _        =>
    if arg = "--version" then
      .error .version
    else if arg = "--help" then
      .error .help
    else
      match arg.toList with
      | '-' :: 'V' :: _ => .error .version
      | '-' :: 'h' :: _ => .error .help
      | _               => .error .usage

end Command
end TreeQuery
