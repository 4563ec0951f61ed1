import TreeQuery.Proofs.Selector.LexError
import TreeQuery.Proofs.Token.Runs

namespace TreeQuery

namespace Parser

variable {l : Lexer} {p p' : Parser} {r r' : Reading} {e : LexError} {s : Selector} {text : String}

-- The parser behind a number of calls.
def after (p : Parser) : Nat → Parser
  | 0     => p
  | n + 1 => (p.after n).parse.2

theorem current_of_run_eq_ok (h : p.run r = (.ok r', p')) : p'.current = .endOfInput := by
  induction p, r using run.induct
  case case1 hc             =>
    rw [run_of_endOfInput hc] at h
    cases h
    exact hc
  case case2 hc _ _ hn      => cases (run_of_next_error hc hn).symm.trans h
  case case3 hc _ _ hn _ hi => exact hi <| (run_of_next_token hc hn).symm.trans h

theorem exists_next_error_of_run (h : p.run r = (.error e, p')) :
    ∃ l : Lexer, l.next = (.error e, p'.lexer) := by
  induction p, r using run.induct
  case case1 hc             => cases (run_of_endOfInput hc).symm.trans h
  case case2 p _ hc _ _ hn  =>
    cases (run_of_next_error hc hn).symm.trans h
    exact ⟨p.lexer, hn⟩
  case case3 hc _ _ hn _ hi => exact hi <| (run_of_next_token hc hn).symm.trans h

-- A call does one of three things: it finds nothing to read, it reads up to the end of input, or it
-- stops at a lex error, where the lexer was left by the token that could not be read.
theorem parse_cases (p : Parser) :
    (p.current = .endOfInput ∧ p.parse = (.error .empty, { p with recovered := [] })) ∨
    (p.current ≠ .endOfInput ∧ p.parse.2.current = .endOfInput ∧
      ∃ ts stop, p.ahead = .ok (ts, stop)) ∨
    (∃ e, p.parse.1 = .error (.lex e) ∧ ∃ l : Lexer, l.next = (.error e, p.parse.2.lexer)) := by
  by_cases hc : p.current = .endOfInput
  case pos => exact .inl ⟨hc, by simp [parse, hc]⟩
  case neg =>
    have hr := run_eq (p := { p with recovered := [] }) (r := Reading.start)
    have ha : ({ p with recovered := [] } : Parser).ahead = p.ahead := rfl
    rcases hp : run { p with recovered := [] } .start with ⟨_ | _, p'⟩
    case error e =>
      have he : p.parse = (.error (.lex e), p') := by simp [parse, hc, hp]
      exact .inr <| .inr ⟨e, by rw [he], he ▸ exists_next_error_of_run hp⟩
    case ok r    =>
      have he : p.parse.2.current = p'.current := by
        simp only [parse, hc, hp, if_false]
        split <;> rfl
      refine .inr <| .inl ⟨hc, he.trans <| current_of_run_eq_ok hp, ?_⟩
      rw [hp, ha] at hr
      cases hs : p.ahead <;> simp [hs, Except.map] at hr
      exact ⟨_, _, rfl⟩

-- A token is taken only behind another one, so the token with which a call starts is still there if
-- the lexer fails right behind it.
theorem parse_of_next_error {l : Lexer} (hc : p.current ≠ .endOfInput)
    (hn : p.lexer.next = (.error e, l)) :
    p.parse = (.error (.lex e), { p with lexer := l, recovered := [] }) := by
  have hr := run_of_next_error (p := { p with recovered := [] }) (r := .start) hc hn
  have ht : Reading.start.takes p.current = false := rfl
  simp [parse, hc, hr, ht]

-- The last token alone is no alternative, and if it is a bar, it has none on either side.
theorem outcome_read_ne_ok {t : Token} {place stop : Nat} :
    ((Reading.start.read t place).close .endOfInput stop).outcome.1 ≠ .ok s := by
  cases t <;> simp [Reading.read, Reading.shift, Reading.close, Reading.start, Stage.shift?,
    Stage.close?, Reading.outcome]

-- No call on such a parser gives a selector: its token is the last one, or a token behind it cannot
-- be read and never will be.
inductive Spent (p : Parser) : Prop
  | atEnd     : (p.current = .endOfInput) → Spent p
  | lastToken : (∀ c ∈ p.lexer.rest, isBlank c) → Spent p
  | stuck     : (∃ e, p.lexer.next = (.error e, p.lexer)) → Spent p

namespace Spent

theorem ahead_of_lastToken (hc : p.current ≠ .endOfInput) (hb : ∀ c ∈ p.lexer.rest, isBlank c) :
    ∃ stop, p.ahead = .ok ([(p.current, p.position)], stop) := by
  have hn := Lexer.next_eq_endOfInput hb
  exact ⟨_, by simp [ahead, hc, Lexer.placed_of_next_endOfInput hn, Except.map]; rfl⟩

theorem parse_ne_ok (h : p.Spent) : p.parse.1 ≠ .ok s := by
  by_cases hc : p.current = .endOfInput
  case pos => simp [Parser.parse, hc]
  case neg =>
    cases h
    case atEnd h     => exact absurd h hc
    case lastToken h =>
      obtain ⟨_, ha⟩ := ahead_of_lastToken hc h
      have ho := (Prod.ext_iff.mp <| parse_eq hc ha).left
      exact ho ▸ outcome_read_ne_ok
    case stuck h     =>
      obtain ⟨e, hn⟩ := h
      simp [parse_of_next_error hc hn]

theorem parse (h : p.Spent) : p.parse.2.Spent := by
  by_cases hc : p.current = .endOfInput
  case pos => exact .atEnd <| by simp [Parser.parse, hc]
  case neg =>
    cases h
    case atEnd h     => exact absurd h hc
    case lastToken h =>
      obtain ⟨_, ha⟩ := ahead_of_lastToken hc h
      rcases p.parse_cases with ⟨he, _⟩ | ⟨_, he, _⟩ | ⟨e, he, _⟩
      case inl     => exact absurd he hc
      case inr.inl => exact .atEnd he
      case inr.inr => cases ha.symm.trans <| parse_eq_lex_iff.mp he
    case stuck h     =>
      obtain ⟨e, hn⟩ := h
      exact .stuck ⟨e, by simp only [parse_of_next_error hc hn, hn]⟩

theorem after (h : p.Spent) (n : Nat) : (p.after n).Spent := by
  induction n
  case zero    => exact h
  case succ hi => exact hi.parse

end Spent

-- A call leaves something for the calls behind it only if it meets an escape that does not exist.
theorem spent_parse (p : Parser)
    (he : ∀ e, p.parse.1 = .error (.lex e) → ∀ c, e.fault ≠ .invalidEscape c) :
    p.parse.2.Spent := by
  rcases p.parse_cases with ⟨hc, _⟩ | ⟨_, hc, _⟩ | ⟨e, hp, l, hn⟩
  case inl     => exact .atEnd <| by simp [Parser.parse, hc]
  case inr.inl => exact .atEnd hc
  case inr.inr =>
    have hb := Lexer.behind_of_next_eq_error hn
    obtain ⟨fault, place⟩ := e
    cases fault
    case invalidEscape c        => exact absurd rfl <| he _ hp c
    case unterminated           => exact .lastToken <| by simp [show _ = [] from hb]
    case loneTilde | unexpected => exact .stuck ⟨_, hb⟩

theorem after_add (p : Parser) (m n : Nat) : p.after (m + n) = (p.after m).after n := by
  induction n
  case zero    => rfl
  case succ hi => exact congrArg (·.parse.2) hi

theorem isIn_run (h : p.lexer.IsIn text) : (p.run r).2.lexer.IsIn text := by
  induction p, r using run.induct
  case case1 hc             => rwa [run_of_endOfInput hc]
  case case2 hc _ _ hn      =>
    rw [run_of_next_error hc hn]
    exact h.next hn
  case case3 hc _ _ hn _ hi =>
    rw [run_of_next_token hc hn]
    exact hi <| h.next hn

theorem isIn_parse (h : p.lexer.IsIn text) : p.parse.2.lexer.IsIn text := by
  have hr := isIn_run (p := { p with recovered := [] }) (r := .start) h
  unfold parse
  split
  case isTrue  => exact h
  case isFalse =>
    split <;> simp_all
    split <;> simp_all

theorem isIn_after (h : p.lexer.IsIn text) (n : Nat) : (p.after n).lexer.IsIn text := by
  induction n
  case zero    => exact h
  case succ hi => exact isIn_parse hi

theorem isIn_ofLexer (hp : ofLexer (.ofText text) = .ok p) : p.lexer.IsIn text := by
  have hl : (Lexer.ofText text).IsIn text := rfl
  unfold ofLexer at hp
  split at hp <;> cases hp
  case _ hn => exact hl.next hn

-- If a later call succeeds, then the call right before it has met an escape that does not exist.
theorem exists_invalidEscape_of_parse_eq_ok {n : Nat} (h : (p.after <| n + 1).parse.1 = .ok s) :
    ∃ c place, (p.after n).parse.1 = .error (.lex ⟨.invalidEscape c, place⟩) := by
  by_contra hn
  refine (spent_parse (p.after n) ?_).parse_ne_ok h
  intro e he c hf
  exact hn ⟨c, e.position, by rw [he, ←hf]⟩

theorem rest_after_invalidEscape {c : Char} (h : p.lexer.IsIn text)
    (he : p.parse.1 = .error (.lex e)) (hf : e.fault = .invalidEscape c) :
    p.parse.2.lexer.rest = text.toList.drop (e.position + 1) := by
  rcases p.parse_cases with ⟨_, hp⟩ | ⟨_, _, _, _, ha⟩ | ⟨e', hp, l, hn⟩
  case inl     => simp [hp] at he
  case inr.inl => cases ha.symm.trans <| parse_eq_lex_iff.mp he
  case inr.inr =>
    cases he.symm.trans hp
    have hb := Lexer.behind_of_next_eq_error hn
    simp only [Lexer.Behind, hf] at hb
    rw [isIn_parse h, hb]

-- Behind a lex error no call succeeds any more, unless the error is about an escape that does not
-- exist. In that case the next call goes on within the quotation, right behind the backslash, and
-- no call succeeds that does not come right behind such an error.
theorem not_ok_after_lex_error {i : Nat} (hp : ofLexer (.ofText text) = .ok p)
    (hi : (p.after i).parse.1 = .error (.lex e)) :
    ((∀ c, e.fault ≠ .invalidEscape c) → ∀ j > i, ∀ s, (p.after j).parse.1 ≠ .ok s) ∧
    (∀ c, e.fault = .invalidEscape c →
      (p.after <| i + 1).lexer.rest = text.toList.drop (e.position + 1)) ∧
    ∀ j s, (p.after <| j + 1).parse.1 = .ok s →
      ∃ c place, (p.after j).parse.1 = .error (.lex ⟨.invalidEscape c, place⟩) := by
  refine ⟨?refused, ?within, fun j s => exists_invalidEscape_of_parse_eq_ok⟩
  case refused =>
    intro hf j hj s
    have ⟨k, hk⟩ := Nat.exists_eq_add_of_lt hj
    have hs : (p.after <| i + 1).Spent := by
      apply spent_parse
      intro e' he
      cases hi.symm.trans he
      exact hf
    have hj : p.after j = (p.after <| i + 1).after k := by
      rw [←after_add, hk]
      congr 1
      omega
    exact hj ▸ (hs.after k).parse_ne_ok
  case within  =>
    intro c hf
    exact rest_after_invalidEscape (isIn_after (isIn_ofLexer hp) i) hi hf

-- The tilde is met again by each call.
theorem lone_tilde_ends_calls :
    ∃ p, ofLexer (.ofText "/a/~b") = .ok p ∧
      (p.after 0).parse.1 = .error (.lex ⟨.loneTilde, 3⟩) ∧
      ∀ j > 0, ∀ s, (p.after j).parse.1 ≠ .ok s := by
  have hi : (⟨.slash, 0, ⟨"a/~b".toList, 1, 0⟩, []⟩ : Parser).parse.1 =
      .error (.lex ⟨.loneTilde, 3⟩) := by
    decide +kernel
  have hp : ofLexer (.ofText "/a/~b") = .ok ⟨.slash, 0, ⟨"a/~b".toList, 1, 0⟩, []⟩ := rfl
  have hs := not_ok_after_lex_error (i := 0) hp hi
  exact ⟨_, hp, hi, hs.left (by simp)⟩

-- The slash is still there when the lexer stands within the quotation.
theorem selector_behind_invalid_escape :
    ∃ p, ofLexer (.ofText "/'\\a") = .ok p ∧
      (p.after 0).parse.1 = .error (.lex ⟨.invalidEscape 'a', 2⟩) ∧
      (p.after 1).parse.1 = .ok ⟨[⟨.root, ⟨.named "a", none⟩, []⟩]⟩ := by
  refine ⟨⟨.slash, 0, ⟨"'\\a".toList, 1, 0⟩, []⟩, rfl, ?_, ?_⟩ <;> decide +kernel

end Parser
end TreeQuery
