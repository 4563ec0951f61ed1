import TreeQuery.Selector
import TreeQuery.Token

-- The grammar of a single alternative over tokens, together with what each production stands for:
--
-- alternative := '/' segment path | '**' '/' segment path
-- path        := ('/' segment)*
-- segment     := step filter?
-- step        := identifier | '*' | '~~' | '.' | '..'
-- filter      := '{' condition (',' condition)* '}'
-- condition   := key '=' value
-- key         := identifier | quoted
-- value       := identifier | quoted | '*'
namespace TreeQuery

inductive Step.DerivedFrom : Step → Token → Prop
  | named (name : String) : (named name).DerivedFrom (.identifier name)
  | wildcard              : wildcard.DerivedFrom .star
  | descendants           : descendants.DerivedFrom .placeholder
  | current               : current.DerivedFrom .dot
  | parent                : parent.DerivedFrom .dotDot

inductive KeyDerivedFrom : String → Token → Prop
  | identifier (key : String) : KeyDerivedFrom key (.identifier key)
  | quoted (key : String)     : KeyDerivedFrom key (.quoted key)

inductive Value.DerivedFrom : Value → Token → Prop
  | star                     : any.DerivedFrom .star
  | quotedStar               : any.DerivedFrom (.quoted "*")
  | identifier (text)        : (exactly text).DerivedFrom (.identifier text)
  | quoted {text} : text ≠ "*" → (exactly text).DerivedFrom (.quoted text)

inductive Condition.DerivedFrom : Condition → List Token → Prop
  | mk {key value t u} :
    KeyDerivedFrom key t → value.DerivedFrom u → Condition.DerivedFrom ⟨key, value⟩ [t, .equals, u]

inductive ConditionsDerivedFrom : List Condition → List Token → Prop
  | one {c ts}        : c.DerivedFrom ts → ConditionsDerivedFrom [c] ts
  | more {c cs ts us} :
    c.DerivedFrom ts → ConditionsDerivedFrom cs us →
    ConditionsDerivedFrom (c :: cs) (ts ++ .comma :: us)

inductive Filter.DerivedFrom : Filter → List Token → Prop
  | mk {cs ts} :
    ConditionsDerivedFrom cs ts → Filter.DerivedFrom ⟨cs⟩ (.openBrace :: (ts ++ [.closeBrace]))

inductive Segment.DerivedFrom : Segment → List Token → Prop
  | bare {s t} : s.DerivedFrom t → Segment.DerivedFrom ⟨s, none⟩ [t]
  | filtered {s f t ts} :
    s.DerivedFrom t → f.DerivedFrom ts → Segment.DerivedFrom ⟨s, some f⟩ (t :: ts)

inductive PathDerivedFrom : List Segment → List Token → Prop
  | nil : PathDerivedFrom [] []
  | cons {s path ts us} :
    s.DerivedFrom ts → PathDerivedFrom path us → PathDerivedFrom (s :: path) (.slash :: (ts ++ us))

inductive Alternative.DerivedFrom : Alternative → List Token → Prop
  | root {first path ts us} :
    first.DerivedFrom ts → PathDerivedFrom path us →
    Alternative.DerivedFrom ⟨.root, first, path⟩ (.slash :: (ts ++ us))
  | anywhere {first path ts us} :
    first.DerivedFrom ts → PathDerivedFrom path us →
    Alternative.DerivedFrom ⟨.anywhere, first, path⟩ (.doubleStar :: .slash :: (ts ++ us))

-- A list of conditions and a path also grow at their ends.

theorem ConditionsDerivedFrom.concat {cs ts c us}
    (h : ConditionsDerivedFrom cs ts) (hc : c.DerivedFrom us) :
    ConditionsDerivedFrom (cs ++ [c]) (ts ++ .comma :: us) := by
  induction h
  case one hc'     => exact .more hc' (.one hc)
  case more hc' _ hi =>
    rw [List.append_assoc]
    exact .more hc' hi

theorem PathDerivedFrom.concat {path ts s us}
    (h : PathDerivedFrom path ts) (hs : s.DerivedFrom us) :
    PathDerivedFrom (path ++ [s]) (ts ++ .slash :: us) := by
  induction h
  case nil => simpa using PathDerivedFrom.cons hs .nil
  case cons hs' _ hi =>
    rw [List.cons_append, List.cons_append, List.append_assoc]
    exact .cons hs' hi

theorem Alternative.DerivedFrom.concat {a ts s us}
    (h : Alternative.DerivedFrom a ts) (hs : s.DerivedFrom us) :
    Alternative.DerivedFrom { a with path := a.path ++ [s] } (ts ++ .slash :: us) := by
  cases h
  case root hf hp     => simpa using DerivedFrom.root hf (hp.concat hs)
  case anywhere hf hp => simpa using DerivedFrom.anywhere hf (hp.concat hs)

end TreeQuery
