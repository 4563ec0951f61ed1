import TreeQuery.Proofs.Selector.Calls

namespace TreeQuery.Parser

variable {p : Parser} {e : LexError} {i : Nat} {text : String}

-- Each call starts over with an empty list of recovered errors, and only a selector leaves some.
theorem exists_ok_of_recovered (h : p.parse.2.recovered ≠ []) : ∃ s, p.parse.1 = .ok s := by
  have hr := recovered_run (p := { p with recovered := [] }) (r := Reading.start)
  unfold parse at h ⊢
  split at h
  case isTrue      => contradiction
  case isFalse hc =>
    rw [if_neg hc]
    split at h <;> rename_i hp <;> simp only [hp] at hr ⊢
    case h_1 => exact absurd hr h
    case h_2 =>
      split at h
      case h_1 | h_2 => exact absurd hr h
      case h_3       => exact ⟨_, rfl⟩

theorem recovered_ofLexer {l : Lexer} (hp : ofLexer l = .ok p) : p.recovered = [] := by
  unfold ofLexer at hp
  split at hp <;> cases hp
  rfl

-- A call that does not stop at a lex error has read everything.
theorem current_of_parse (h : ∀ e, p.parse.1 ≠ .error (.lex e)) :
    p.parse.2.current = .endOfInput := by
  rcases p.parse_cases with ⟨hc, hp⟩ | ⟨_, hc, _⟩ | ⟨e, he, _⟩
  case inl     => rw [hp]; exact hc
  case inr.inl => exact hc
  case inr.inr => exact absurd he (h e)

theorem parse_of_endOfInput (hc : p.current = .endOfInput) :
    p.parse = (.error .empty, { p with recovered := [] }) := by
  simp [parse, hc]

theorem current_after (hc : p.current = .endOfInput) (n : Nat) :
    (p.after n).current = .endOfInput := by
  induction n
  case zero    => exact hc
  case succ hi => rw [after, parse_of_endOfInput hi]; exact hi

-- A lexer that is stuck leaves nothing to the next call but what this call has found.
theorem after_stuck (hc : p.current ≠ .endOfInput) (hn : p.lexer.next = (.error e, p.lexer))
    (n : Nat) : (p.after n).current = p.current ∧ (p.after n).lexer = p.lexer := by
  induction n
  case zero       => exact ⟨rfl, rfl⟩
  case succ n hi =>
    obtain ⟨hc', hl⟩ := hi
    have hn : (p.after n).lexer.next = (.error e, p.lexer) := hl ▸ hn
    rw [after, parse_of_next_error (hc' ▸ hc) hn]
    exact ⟨hc', rfl⟩

theorem exists_after_eq {j : Nat} (h : i < j) : ∃ n, p.after j = (p.after <| i + 1).after n := by
  have ⟨n, hn⟩ := Nat.exists_eq_add_of_lt h
  exact ⟨n, by rw [←after_add, hn, Nat.add_right_comm]⟩

-- Once everything has been read, each further call finds nothing to parse.
theorem parse_after_of_endOfInput (hc : (p.after <| i + 1).current = .endOfInput) {j : Nat}
    (h : i < j) : (p.after j).parse.1 = .error .empty ∧ (p.after j).parse.2.recovered = [] := by
  obtain ⟨n, hn⟩ := exists_after_eq h
  rw [hn, parse_of_endOfInput (current_after hc n)]
  exact ⟨rfl, rfl⟩

-- A lexer stays at a character that no token starts with.
theorem parse_after_of_stuck (hc : (p.after <| i + 1).current ≠ .endOfInput)
    (hi : (p.after i).parse.1 = .error (.lex e))
    (hf : e.fault = .loneTilde ∨ ∃ c, e.fault = .unexpected c) {j : Nat} (h : i < j) :
    (p.after j).parse.1 = .error (.lex e) := by
  obtain ⟨n, hn⟩ := exists_after_eq h
  rcases (p.after i).parse_cases with ⟨_, hp⟩ | ⟨_, _, _, _, ha⟩ | ⟨e', he, l, hl⟩
  case inl     => simp [hp] at hi
  case inr.inl => cases ha.symm.trans <| parse_eq_lex_iff.mp hi
  case inr.inr =>
    cases hi.symm.trans he
    have hb := Lexer.behind_of_next_eq_error hl
    have hs : (p.after <| i + 1).lexer.next = (.error e, (p.after <| i + 1).lexer) := by
      rcases hf with hf | ⟨c, hf⟩ <;> simp only [Lexer.Behind, hf] at hb <;> exact hb
    obtain ⟨hc', hl'⟩ := after_stuck hc hs n
    rw [hn, parse_of_next_error (hc' ▸ hc) (hl' ▸ hs)]

-- A call that returns a selector, or an error about the order of the tokens, is the last one that
-- finds anything. Calls behind a character that no token starts with all come to the same end.
theorem calls_behind_parse (hp : ofLexer (.ofText text) = .ok p) :
    (∀ i, (∀ e, (p.after i).parse.1 ≠ .error (.lex e)) →
      ∀ j > i, (p.after j).parse.1 = .error .empty ∧ (p.after j).parse.2.recovered = []) ∧
    (∀ i e, (p.after i).parse.1 = .error (.lex e) →
      (e.fault = .loneTilde ∨ ∃ c, e.fault = .unexpected c) →
      (∀ j > i, (p.after j).parse.1 = .error (.lex e)) ∨
        ∀ j > i, (p.after j).parse.1 = .error .empty) ∧
    ∀ n, (p.after n).recovered ≠ [] → ∃ i s, n = i + 1 ∧ (p.after i).parse.1 = .ok s := by
  refine ⟨fun i hi j hj => ?complete, fun i e hi hf => ?stuck, fun n hr => ?recovered⟩
  case complete  => exact parse_after_of_endOfInput (current_of_parse hi) hj
  case stuck     =>
    by_cases hc : (p.after <| i + 1).current = .endOfInput
    case pos => exact .inr fun j hj => (parse_after_of_endOfInput hc hj).left
    case neg => exact .inl fun j hj => parse_after_of_stuck hc hi hf hj
  case recovered =>
    cases n
    case zero   => exact absurd (recovered_ofLexer hp) hr
    case succ i =>
      have ⟨s, hs⟩ := exists_ok_of_recovered hr
      exact ⟨i, s, rfl, hs⟩

-- The first call drops an alternative, and the calls behind it find nothing.
theorem calls_behind_recovery :
    ∃ p, ofLexer (.ofText "/a|b") = .ok p ∧ (p.after 1).recovered = [.missingRoot 3] ∧
      (∃ s, (p.after 0).parse.1 = .ok s) ∧ ∀ j > 0, (p.after j).parse.1 = .error .empty := by
  have hp : ofLexer (.ofText "/a|b") = .ok ⟨.slash, 0, ⟨['a', '|', 'b'], 1, 0⟩, []⟩ := rfl
  have hr : (after ⟨.slash, 0, ⟨['a', '|', 'b'], 1, 0⟩, []⟩ 1).recovered = [.missingRoot 3] := by
    decide +kernel
  have ⟨hc, _, hs⟩ := calls_behind_parse hp
  have ⟨i, s, hi, hs⟩ := hs 1 (by simp [hr])
  cases hi
  exact ⟨_, hp, hr, ⟨s, hs⟩, fun j hj => (hc 0 (by simp [hs]) j hj).left⟩

end TreeQuery.Parser
