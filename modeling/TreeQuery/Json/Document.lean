namespace TreeQuery.Json

inductive Document
  | null
  | text (s : String)
  | array (items : List Document)
  | object (fields : List (String × Document))

-- An object with its fields in the order of their keys.
def Document.record (fields : List (String × Document)) : Document :=
  object <| fields.mergeSort (·.1 ≤ ·.1)

inductive Layout
  | compact
  | indented
deriving DecidableEq

namespace Layout

def newline : Layout → Nat → List Char
  | compact,  _     => []
  | indented, depth => '\n' :: List.replicate (2 * depth) ' '

def colon : Layout → List Char
  | compact  => [':']
  | indented => [':', ' ']

end Layout

-- Only quotes, backslashes and control characters are escaped.
def escape (c : Char) : List Char :=
  match c with
  | '"'    => ['\\', '"']
  | '\\'   => ['\\', '\\']
  | '\x08' => ['\\', 'b']
  | '\x0c' => ['\\', 'f']
  | '\n'   => ['\\', 'n']
  | '\r'   => ['\\', 'r']
  | '\t'   => ['\\', 't']
  | c      =>
    if c.toNat < 0x20 then
      ['\\', 'u', '0', '0', (c.toNat / 16).digitChar, (c.toNat % 16).digitChar]
    else
      [c]

def quote (s : String) : List Char :=
  '"' :: s.toList.flatMap escape ++ ['"']

namespace Document

variable (l : Layout)

-- Each item stands on a line of its own, and empty arrays and objects stay on one line.
mutual

def write (depth : Nat) : Document → List Char
  | null            => ['n', 'u', 'l', 'l']
  | text s          => quote s
  | array []        => ['[', ']']
  | array (d :: ds) =>
    '[' :: l.newline (depth + 1) ++ d.write (depth + 1) ++ writeItems (depth + 1) ds ++
      l.newline depth ++ [']']
  | object []       => ['{', '}']
  | object (f :: fs) =>
    '{' :: l.newline (depth + 1) ++ writeField (depth + 1) f ++ writeFields (depth + 1) fs ++
      l.newline depth ++ ['}']

def writeItems (depth : Nat) : List Document → List Char
  | []      => []
  | d :: ds => ',' :: l.newline depth ++ d.write depth ++ writeItems depth ds

def writeField (depth : Nat) : String × Document → List Char
  | (key, d) => quote key ++ l.colon ++ d.write depth

def writeFields (depth : Nat) : List (String × Document) → List Char
  | []      => []
  | f :: fs => ',' :: l.newline depth ++ writeField depth f ++ writeFields depth fs

end

def toText (d : Document) : String :=
  String.ofList <| d.write l 0

end Document
end TreeQuery.Json
