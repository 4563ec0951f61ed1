import TreeQuery.Selector
import TreeQuery.Selector.SyntaxError

namespace TreeQuery

-- Where the segment that is being read belongs.
inductive Place
  | first (anchor : Anchor)
  | after (alternative : Alternative)
deriving DecidableEq

def Place.fill : Place → Segment → Alternative
  | first anchor,      s => { anchor, first := s, path := [] }
  | after alternative, s => { alternative with path := alternative.path ++ [s] }

-- How far the reading of an alternative has come, by the token that was read last.
inductive Stage
  | start
  | stars
  | slash (place : Place)
  | step (place : Place) (step : Step)
  | openBrace (place : Place) (step : Step) (conditions : List Condition)
  | key (place : Place) (step : Step) (conditions : List Condition) (key : String)
  | equals (place : Place) (step : Step) (conditions : List Condition) (key : String)
  | value (place : Place) (step : Step) (conditions : List Condition)
  | closeBrace (alternative : Alternative)
deriving DecidableEq

def Step.ofToken? : Token → Option Step
  | .identifier name => some <| .named name
  | .star            => some .wildcard
  | .placeholder     => some .descendants
  | .dot             => some .current
  | .dotDot          => some .parent
  | _                => none

def keyOfToken? : Token → Option String
  | .identifier key | .quoted key => some key
  | _                             => none

-- A star stands for any value, with or without quotes.
def Value.ofToken? : Token → Option Value
  | .star            => some .any
  | .quoted text     => some <| if text = "*" then .any else .exactly text
  | .identifier text => some <| .exactly text
  | _                => none

namespace Stage

-- The stage behind one more token of the alternative.
def shift? : Stage → Token → Option Stage
  | start,                          .slash      => some <| slash (.first .root)
  | start,                          .doubleStar => some stars
  | stars,                          .slash      => some <| slash (.first .anywhere)
  | slash place,                    token       => (Step.ofToken? token).map (step place)
  | step place s,                   .slash      => some <| slash (.after <| place.fill ⟨s, none⟩)
  | step place s,                   .openBrace  => some <| openBrace place s []
  | openBrace place s conditions,   token       => (keyOfToken? token).map (key place s conditions)
  | key place s conditions k,       .equals     => some <| equals place s conditions k
  | equals place s conditions k,    token       =>
    (Value.ofToken? token).map fun v => value place s (conditions ++ [⟨k, v⟩])
  | value place s conditions,       .comma      => some <| openBrace place s conditions
  | value place s conditions,       .closeBrace =>
    some <| closeBrace (place.fill ⟨s, some ⟨conditions⟩⟩)
  | closeBrace alternative,         .slash      => some <| slash (.after alternative)
  | _,                              _           => none

-- The alternative that has been read, if it is complete.
def close? : Stage → Option Alternative
  | step place s           => some <| place.fill ⟨s, none⟩
  | closeBrace alternative => some alternative
  | _                      => none

-- The error about a token that fits neither `shift?` nor the end of the alternative.
def refuse (stage : Stage) (found : Token) (position : Nat) : SyntaxError :=
  match stage with
  | start         => .missingRoot position
  | stars         => .unexpected .slashAfterStars found position
  | slash ..      => .unexpected .step found position
  | step ..       => .unexpected .pipeOrEnd found position
  | openBrace ..  => .unexpected .attributeName found position
  | key ..        => .unexpected .equals found position
  | equals ..     => .unexpected .attributeValue found position
  | value ..      => .unexpected .commaOrBrace found position
  | closeBrace .. => .unexpected .pipeOrEnd found position

-- Names, keys and values are taken out of the token that carries them.
def takes (stage : Stage) (token : Token) : Bool :=
  match stage with
  | slash .. | openBrace .. | equals .. => (stage.shift? token).isSome
  | _                                   => false

end Stage

-- The reading of a whole selector. After an error the rest of the alternative is skipped.
structure Reading where
  stage        : Except SyntaxError Stage
  alternatives : List Alternative
  failures     : List SyntaxError

namespace Reading

def start : Reading where
  stage        := .ok .start
  alternatives := []
  failures     := []

-- Ends the current alternative before the token `found`, which is a bar or the end of input.
def close (r : Reading) (found : Token) (position : Nat) : Reading :=
  match r.stage with
  | .error e  => { r with stage := .ok .start, failures := r.failures ++ [e] }
  | .ok stage =>
    match stage.close? with
    | some a => { r with stage := .ok .start, alternatives := r.alternatives ++ [a] }
    | none   =>
      { r with stage := .ok .start, failures := r.failures ++ [stage.refuse found position] }

def shift (r : Reading) (token : Token) (position : Nat) : Reading :=
  match r.stage with
  | .error _  => r
  | .ok stage =>
    match stage.shift? token with
    | some stage' => { r with stage := .ok stage' }
    | none        => { r with stage := .error <| stage.refuse token position }

def read (r : Reading) (token : Token) (position : Nat) : Reading :=
  if token = .pipe then r.close token position else r.shift token position

def takes (r : Reading) (token : Token) : Bool :=
  match r.stage with
  | .error _  => false
  | .ok stage => stage.takes token

end Reading
end TreeQuery
