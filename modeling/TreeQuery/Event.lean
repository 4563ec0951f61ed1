import TreeQuery.Selector.Canonical
import TreeQuery.Selector.SyntaxError

namespace TreeQuery

inductive Level
  | warn
  | debug
  | trace
deriving DecidableEq

-- What the evaluation of a selector reports besides its result. Sizes count duplicates.
inductive Event
  | skippedAlternative (selector : String) (error : SyntaxError)
  | invalidSelector (selector : String) (error : SyntaxError)
  | appliedSegment (segment : Segment) (size : Nat)
  | evaluatedAlternative (alternative : Alternative) (found : Nat)
deriving DecidableEq

namespace Event

def level : Event → Level
  | skippedAlternative .. | invalidSelector .. => .warn
  | evaluatedAlternative ..                    => .debug
  | appliedSegment ..                          => .trace

def message : Event → String
  | skippedAlternative ..   => "skipped invalid alternative"
  | invalidSelector ..      => "invalid selector, no nodes selected"
  | appliedSegment ..       => "applied segment"
  | evaluatedAlternative .. => "evaluated alternative"

end Event
end TreeQuery
