import Mathlib.Data.List.Chain
import TreeQuery.Proofs.Token.Layout

namespace TreeQuery

namespace Token

-- Pairs of tokens that would be read as other tokens if nothing stood between them.
def fuses : Token → Token → Bool
  | identifier _, identifier _ | identifier _, dot | identifier _, dotDot => true
  | star,         star         | star,         doubleStar                 => true
  | dot,          dot          | dot,          dotDot                     => true
  | _,            _                                                       => false

variable {t u : Token} {c : Char} {gap rest : List Char}

theorem absorbs_eq_false_of_isBlank (hc : isBlank c) : t.absorbs c = false := by
  have hw : isWordStart c = false := by
    by_contra hw
    simp [isBlank_eq_false_of_isWordStart (by simpa using hw)] at hc
  have hn {d : Char} (hd : isBlank d = false) : c ≠ d := by
    intro he
    simp [←he, hc] at hd
  cases t
  case identifier => simpa [absorbs, isWordChar, hw] using hn (by decide)
  case star       => exact decide_eq_false <| hn (by decide)
  case dot        => exact decide_eq_false <| hn (by decide)
  all_goals rfl

theorem absorbs_eq_fuses_identifier {name : String} (hc : isWordStart c) :
    t.absorbs c = t.fuses (identifier name) := by
  have hn {d : Char} (hd : d ∈ punctuation) : c ≠ d := by
    intro he
    simp [he, isWordStart_eq_false_of_punctuation hd] at hc
  cases t
  case identifier => simp [absorbs, isWordChar, hc, fuses]
  case star       => exact decide_eq_false <| hn (by decide)
  case dot        => exact decide_eq_false <| hn (by decide)
  all_goals rfl

theorem isWordChar_of_punctuation (hc : c ∈ punctuation) : isWordChar c = decide (c = '.') := by
  simp [isWordChar, isWordStart_eq_false_of_punctuation hc, beq_eq_decide]

-- What a token absorbs of its successor is decided by the first character alone.
theorem absorbs_eq_fuses (hu : u.Spellable) (hc : (u.spelling ++ rest).head? = some c) :
    t.absorbs c = t.fuses u := by
  cases u
  case endOfInput => exact hu.elim
  case identifier name =>
    simp only [Spellable] at hu
    simp only [spelling] at hc
    cases hn : name.toList <;> simp [hn, isWord] at hu hc
    exact absorbs_eq_fuses_identifier (hc ▸ hu.left)
  all_goals
    cases hc
    cases t
    case identifier => exact isWordChar_of_punctuation (by decide)
    all_goals rfl

theorem endsBefore_spelling_iff (hu : u.Spellable) :
    t.EndsBefore (u.spelling ++ rest) ↔ t.fuses u = false := by
  have hn : ∃ c, (u.spelling ++ rest).head? = some c := by
    cases u
    case endOfInput => exact hu.elim
    case identifier name =>
      simp only [Spellable] at hu
      cases hn : name.toList <;> simp_all [isWord, spelling]
    all_goals exact ⟨_, rfl⟩
  obtain ⟨c, hc⟩ := hn
  simp only [EndsBefore, hc, Option.mem_some_iff, forall_eq', absorbs_eq_fuses hu hc]

theorem endsBefore_of_gap (hg : ∀ c ∈ gap, isBlank c) (hn : gap ≠ []) :
    t.EndsBefore (gap ++ rest) := by
  intro c hc
  cases gap
  case nil => exact absurd rfl hn
  case cons d gap =>
    cases hc
    exact absorbs_eq_false_of_isBlank <| hg c (.head _)

end Token

-- A text as tokens with gaps: the gap in front, and each token with the gap behind it.
structure Layout where
  lead : List Char
  body : List (Token × List Char)

namespace Layout

def tokens (l : Layout) : List Token :=
  l.body.map Prod.fst

def text (l : Layout) : List Char :=
  l.lead ++ l.body.flatMap fun (t, gap) => t.spelling ++ gap

-- The place of the token with the index `i`, or the end of the text behind the last token.
def start (l : Layout) (i : Nat) : Nat :=
  Layout.text { l with body := l.body.take i } |>.length

-- Gaps hold nothing but blanks, and only tokens that do not fuse stand side by side.
structure WellFormed (l : Layout) : Prop where
  lead      : ∀ c ∈ l.lead, isBlank c
  gaps      : ∀ p ∈ l.body, ∀ c ∈ p.2, isBlank c
  spellable : ∀ t ∈ l.tokens, t.Spellable
  apart     : l.body.IsChain fun p q => p.1.fuses q.1 → p.2 ≠ []

variable {l : Layout} {t : Token} {lead gap : List Char} {body : List (Token × List Char)}

theorem text_cons : text ⟨lead, (t, gap) :: body⟩ = lead ++ (t.spelling ++ text ⟨gap, body⟩) := by
  simp [text]

theorem start_succ {i : Nat} :
    start ⟨lead, (t, gap) :: body⟩ (i + 1) =
      lead.length + t.spelling.length + start ⟨gap, body⟩ i := by
  simp [start, text_cons]
  omega

theorem start_length : l.start l.tokens.length = l.text.length := by
  simp [start, tokens]

theorem endsBefore_text_iff (hg : ∀ c ∈ gap, isBlank c) (hs : ∀ p ∈ body.head?, p.1.Spellable) :
    t.EndsBefore (text ⟨gap, body⟩) ↔ ∀ p ∈ body.head?, t.fuses p.1 → gap ≠ [] := by
  by_cases hn : gap = []
  case neg => simp [text, Token.endsBefore_of_gap hg hn, hn]
  case pos =>
    subst hn
    cases body
    case nil         => simp [text, Token.EndsBefore]
    case cons p body =>
      rw [text_cons, List.nil_append, Token.endsBefore_spelling_iff (hs p rfl)]
      simp

theorem wellFormed_nil_iff : WellFormed ⟨lead, []⟩ ↔ ∀ c ∈ lead, isBlank c where
  mp h  := h.lead
  mpr h := ⟨h, by simp, by simp [tokens], .nil⟩

theorem wellFormed_cons_iff :
    WellFormed ⟨lead, (t, gap) :: body⟩ ↔
      (∀ c ∈ lead, isBlank c) ∧ t.Spellable ∧ t.EndsBefore (text ⟨gap, body⟩) ∧
        WellFormed ⟨gap, body⟩ := by
  have he (hg : ∀ c ∈ gap, isBlank c) (hs : ∀ u ∈ body.map Prod.fst, u.Spellable) :
      t.EndsBefore (text ⟨gap, body⟩) ↔ ∀ p ∈ body.head?, t.fuses p.1 → gap ≠ [] :=
    endsBefore_text_iff hg fun p hp => hs p.1 <| List.mem_map_of_mem <| List.mem_of_mem_head? hp
  constructor
  case mp =>
    intro ⟨hl, hg, hs, ha⟩
    have ⟨hlead, hg⟩ := List.forall_mem_cons.mp hg
    have ⟨ht, hs⟩ := List.forall_mem_cons.mp hs
    have ⟨hf, ha⟩ := List.isChain_cons.mp ha
    exact ⟨hl, ht, (he hlead hs).mpr hf, hlead, hg, hs, ha⟩
  case mpr =>
    intro ⟨hl, ht, hb, hlead, hg, hs, ha⟩
    have hf := (he hlead hs).mp hb
    exact ⟨hl, List.forall_mem_cons.mpr ⟨hlead, hg⟩, List.forall_mem_cons.mpr ⟨ht, hs⟩,
      List.isChain_cons.mpr ⟨hf, ha⟩⟩

theorem WellFormed.exists_spells (h : l.WellFormed) (offset : Nat) :
    ∃ ts stop, Spells offset l.text ts stop ∧ l.tokens = ts.map Prod.fst := by
  obtain ⟨lead, body⟩ := l
  induction body generalizing lead offset
  case nil => exact ⟨[], _, by simpa [text] using Spells.nil h.lead, rfl⟩
  case cons p body hi =>
    have ⟨t, gap⟩ := p
    have ⟨hl, ht, he, h⟩ := wellFormed_cons_iff.mp h
    have ⟨ts, stop, hs, hts⟩ := hi (offset + lead.length + t.spelling.length) gap h
    refine ⟨(t, offset + lead.length) :: ts, stop, ?_, congrArg (t :: ·) hts⟩
    rw [text_cons]
    exact .cons hl ht he hs

end Layout

theorem Spells.exists_layout {offset stop : Nat} {cs : List Char} {ts : List PlacedToken}
    (h : Spells offset cs ts stop) :
    ∃ l : Layout, l.WellFormed ∧ l.text = cs ∧ l.tokens = ts.map Prod.fst := by
  induction h
  case nil hg => exact ⟨⟨_, []⟩, Layout.wellFormed_nil_iff.mpr hg, by simp [Layout.text], rfl⟩
  case cons gap _ t _ hg ht he _ hi =>
    have ⟨⟨lead, body⟩, hl, hc, hts⟩ := hi
    refine ⟨⟨gap, (t, lead) :: body⟩, ?_, by rw [Layout.text_cons, hc], congrArg (t :: ·) hts⟩
    exact Layout.wellFormed_cons_iff.mpr ⟨hg, ht, hc ▸ he, hl⟩

namespace Lexer

-- The lexer behind the first tokens and faults that it has given.
def after (l : Lexer) : Nat → Lexer
  | 0     => l
  | n + 1 => l.next.2.after n

-- Call by call, a lexer gives the tokens of a layout, each with the place where it starts.
theorem next_after_eq {lexer : Lexer} {l : Layout} (hl : l.WellFormed) (hr : lexer.rest = l.text)
    {i : Nat} {t : Token} (ht : (l.tokens ++ [.endOfInput])[i]? = some t) :
    ∃ lexer', (lexer.after i).next = (.ok t, lexer') ∧
      lexer'.tokenStart = lexer.offset + l.start i := by
  obtain ⟨lead, body⟩ := l
  induction body generalizing lexer lead i
  case nil =>
    have hr : lexer.rest = lead := by simpa [Layout.text] using hr
    have hn := next_eq_endOfInput (hr ▸ Layout.wellFormed_nil_iff.mp hl)
    cases i <;> simp [Layout.tokens] at ht
    exact ⟨_, ht ▸ hn, by simp [hr, Layout.start, Layout.text]⟩
  case cons p body hi =>
    have ⟨u, gap⟩ := p
    have ⟨hg, hs, he, hl⟩ := Layout.wellFormed_cons_iff.mp hl
    have hn := next_eq_token (Layout.text_cons ▸ hr) hg hs he
    cases i
    case zero =>
      have ht : u = t := by simpa [Layout.tokens] using ht
      exact ⟨_, ht ▸ hn, by simp [Layout.start, Layout.text]⟩
    case succ i =>
      have hr : lexer.next.2.rest = Layout.text ⟨gap, body⟩ := by rw [hn]
      have ⟨lexer', hn', hp⟩ := hi gap hl hr ht
      refine ⟨lexer', hn', ?_⟩
      simp only [hp, hn, Layout.start_succ]
      omega

end Lexer

-- The texts that can be cut into tokens are the layouts of these tokens. Each token is given by the
-- call that has its index, together with the place of its first character, and the call behind the
-- last token gives the end of input, placed at the end of the text.
theorem tokenize_eq_ok_iff_exists_layout {text : String} :
    (∀ ts, (tokenize text = .ok (ts ++ [.endOfInput])) ↔
      ∃ l : Layout, l.WellFormed ∧ l.text = text.toList ∧ l.tokens = ts) ∧
    (∀ l : Layout, l.WellFormed → l.text = text.toList →
      l.start l.tokens.length = text.length ∧
      ∀ i t, (l.tokens ++ [.endOfInput])[i]? = some t →
        ∃ lexer, ((Lexer.ofText text).after i).next = (.ok t, lexer) ∧
          lexer.tokenStart = l.start i) := by
  refine ⟨fun ts => ⟨fun h => ?layout, fun ⟨l, hl, ht, hts⟩ => ?tokens⟩, fun l hl ht => ?calls⟩
  case layout =>
    have ⟨us, _, hs, hts⟩ := tokenize_eq_ok_append_iff.mp h
    exact hts ▸ hs.exists_layout
  case tokens =>
    have ⟨us, stop, hs, hus⟩ := hl.exists_spells 0
    exact tokenize_eq_ok_append_iff.mpr ⟨us, stop, ht ▸ hs, hts ▸ hus⟩
  case calls =>
    refine ⟨by rw [Layout.start_length, ht, String.length_toList], fun i t hi => ?_⟩
    have hr : (Lexer.ofText text).rest = l.text := ht.symm
    have ⟨lexer, hn, hp⟩ := Lexer.next_after_eq hl hr hi
    exact ⟨lexer, hn, by simpa [Lexer.ofText] using hp⟩

theorem tokenize_with_gaps :
    let text := " a.b ..*\t*'it\\'s'"
    let l : Layout := ⟨[' '], [(.identifier "a.b", [' ']), (.dotDot, []), (.star, ['\t']),
      (.star, []), (.quoted "it's", [])]⟩
    l.WellFormed ∧
      tokenize text = .ok [.identifier "a.b", .dotDot, .star, .star, .quoted "it's", .endOfInput] ∧
      ∃ lexer, ((Lexer.ofText text).after 4).next = (.ok (.quoted "it's"), lexer) ∧
        lexer.tokenStart = 10 := by
  intro text l
  have hl : l.WellFormed := by
    constructor
    case lead      => simp [l, isBlank, blanks]
    case gaps      => simp [l, isBlank, blanks]
    case apart     => simp [l, Token.fuses]
    case spellable =>
      have hw : isWord "a.b".toList := by decide +kernel
      simpa [l, Layout.tokens, Token.Spellable] using hw
  have ht : l.text = text.toList := by decide +kernel
  obtain ⟨htokens, hcalls⟩ := @tokenize_eq_ok_iff_exists_layout text
  exact ⟨hl, htokens _ |>.mpr ⟨l, hl, ht, rfl⟩, (hcalls l hl ht).right 4 _ rfl⟩

end TreeQuery
