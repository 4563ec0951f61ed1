import TreeQuery.Proofs.Selector.Derivation
import TreeQuery.Proofs.Token.Spelling
import TreeQuery.Selector.Canonical

-- The selectors that a text can stand for: each name is a word, no filter is empty, and a star is
-- never a value to compare with.
namespace TreeQuery

def Step.WellFormed : Step → Prop
  | named name => isWord name.toList
  | _          => True

def Condition.WellFormed (c : Condition) : Prop :=
  c.value ≠ .exactly "*"

structure Filter.WellFormed (f : Filter) : Prop where
  nonempty   : f.conditions ≠ []
  conditions : ∀ c ∈ f.conditions, c.WellFormed

structure Segment.WellFormed (s : Segment) : Prop where
  step   : s.step.WellFormed
  filter : ∀ f ∈ s.filter, f.WellFormed

structure Alternative.WellFormed (a : Alternative) : Prop where
  first : a.first.WellFormed
  path  : ∀ s ∈ a.path, s.WellFormed

structure Selector.WellFormed (s : Selector) : Prop where
  nonempty     : s.alternatives ≠ []
  alternatives : ∀ a ∈ s.alternatives, a.WellFormed

theorem Token.Spellable.ne_star {word : String} (h : (identifier word).Spellable) : word ≠ "*" := by
  intro hw
  have hs : isWordStart '*' = false := isWordStart_eq_false_of_punctuation (by decide)
  cases hw
  simp [Spellable, isWord, hs] at h

section

variable {t : Token} {ts : List Token}

-- What is derived from tokens of a text is well-formed.

theorem Step.DerivedFrom.wellFormed {s : Step} (h : s.DerivedFrom t) (ht : t.Spellable) :
    s.WellFormed := by
  cases h
  case named => exact ht
  all_goals trivial

theorem Condition.DerivedFrom.wellFormed {c : Condition} (h : c.DerivedFrom ts)
    (ht : ∀ t ∈ ts, t.Spellable) : c.WellFormed := by
  cases h
  case mk hv =>
    cases hv <;> simp only [WellFormed, ne_eq, reduceCtorEq, not_false_eq_true, Value.exactly.injEq]
    case identifier => exact (ht _ (by simp)).ne_star
    case quoted hn  => exact hn

theorem ConditionsDerivedFrom.wellFormed {cs : List Condition} (h : ConditionsDerivedFrom cs ts)
    (ht : ∀ t ∈ ts, t.Spellable) : Filter.WellFormed ⟨cs⟩ := by
  induction h
  case one hc => exact ⟨by simp, by simpa using hc.wellFormed ht⟩
  case more hc _ hi =>
    have ⟨hts, hus⟩ := List.forall_mem_append.mp ht
    have ⟨_, hi⟩ := hi <| List.forall_mem_cons.mp hus |>.right
    exact ⟨by simp, List.forall_mem_cons.mpr ⟨hc.wellFormed hts, hi⟩⟩

theorem Filter.DerivedFrom.wellFormed {f : Filter} (h : f.DerivedFrom ts)
    (ht : ∀ t ∈ ts, t.Spellable) : f.WellFormed := by
  cases h
  case mk hc => exact hc.wellFormed fun t hm => ht t <| by simp [hm]

theorem Segment.DerivedFrom.wellFormed {s : Segment} (h : s.DerivedFrom ts)
    (ht : ∀ t ∈ ts, t.Spellable) : s.WellFormed := by
  cases h
  case bare hs        => exact ⟨hs.wellFormed <| ht _ <| .head _, by simp⟩
  case filtered hs hf =>
    have hf := hf.wellFormed fun t hm => ht t <| .tail _ hm
    exact ⟨hs.wellFormed <| ht _ <| .head _, by simpa using hf⟩

theorem PathDerivedFrom.wellFormed {path : List Segment} (h : PathDerivedFrom path ts)
    (ht : ∀ t ∈ ts, t.Spellable) : ∀ s ∈ path, s.WellFormed := by
  induction h
  case nil => simp
  case cons hs _ hi =>
    have ⟨hts, hus⟩ := List.forall_mem_append.mp <| List.forall_mem_cons.mp ht |>.right
    exact List.forall_mem_cons.mpr ⟨hs.wellFormed hts, hi hus⟩

theorem Alternative.DerivedFrom.wellFormed {a : Alternative} (h : a.DerivedFrom ts)
    (ht : ∀ t ∈ ts, t.Spellable) : a.WellFormed := by
  cases h
  case root hf hp | anywhere hf hp =>
    constructor
    case first => exact hf.wellFormed fun t hm => ht t (by simp [hm])
    case path  => exact hp.wellFormed fun t hm => ht t (by simp [hm])

end

-- Conversely, what is well-formed is derived from its own tokens.

theorem Step.derivedFrom_token {s : Step} : s.DerivedFrom s.token := by
  cases s <;> constructor

theorem KeyDerivedFrom.ofText {key : String} : KeyDerivedFrom key (.ofText key) := by
  unfold Token.ofText
  split
  case isTrue  => exact .identifier key
  case isFalse => exact .quoted key

theorem Value.derivedFrom_token {v : Value} (h : v ≠ .exactly "*") : v.DerivedFrom v.token := by
  cases v
  case any => exact .star
  case exactly text =>
    rw [token, Token.ofText]
    split
    case isTrue  => exact .identifier text
    case isFalse => exact .quoted (by simpa using h)

theorem Condition.WellFormed.derivedFrom_tokens {c : Condition} (h : c.WellFormed) :
    c.DerivedFrom c.tokens :=
  .mk .ofText (Value.derivedFrom_token h)

theorem ConditionsDerivedFrom.intercalate {cs : List Condition} (hn : cs ≠ [])
    (h : ∀ c ∈ cs, c.WellFormed) :
    ConditionsDerivedFrom cs ([.comma].intercalate (cs.map Condition.tokens)) := by
  induction cs
  case nil => contradiction
  case cons c cs hi =>
    have ⟨hc, h⟩ := List.forall_mem_cons.mp h
    cases cs
    case nil => simpa using ConditionsDerivedFrom.one hc.derivedFrom_tokens
    case cons c' cs =>
      simpa using ConditionsDerivedFrom.more hc.derivedFrom_tokens <| hi (by simp) h

theorem Filter.WellFormed.derivedFrom_tokens {f : Filter} (h : f.WellFormed) :
    f.DerivedFrom f.tokens :=
  .mk <| .intercalate h.nonempty h.conditions

theorem Segment.WellFormed.derivedFrom_tokens {s : Segment} (h : s.WellFormed) :
    s.DerivedFrom s.tokens := by
  match s with
  | ⟨s, none⟩   => exact .bare Step.derivedFrom_token
  | ⟨s, some f⟩ => exact .filtered Step.derivedFrom_token (h.filter f rfl).derivedFrom_tokens

theorem PathDerivedFrom.flatMap {path : List Segment} (h : ∀ s ∈ path, s.WellFormed) :
    PathDerivedFrom path (path.flatMap (.slash :: ·.tokens)) := by
  induction path
  case nil => exact .nil
  case cons s path hi =>
    have ⟨hs, h⟩ := List.forall_mem_cons.mp h
    simpa using PathDerivedFrom.cons hs.derivedFrom_tokens (hi h)

theorem Alternative.WellFormed.derivedFrom_tokens {a : Alternative} (h : a.WellFormed) :
    a.DerivedFrom a.tokens := by
  match a with
  | ⟨.root, first, path⟩     =>
    exact .root h.first.derivedFrom_tokens (.flatMap h.path)
  | ⟨.anywhere, first, path⟩ =>
    exact .anywhere h.first.derivedFrom_tokens (.flatMap h.path)

end TreeQuery
