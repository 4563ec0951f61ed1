import TreeQuery.Proofs.Selector.Slices

namespace TreeQuery

namespace Reading

-- All errors that have been noted so far are about the order of the tokens.
structure IsLexed (r : Reading) : Prop where
  stage    : ∀ {e}, r.stage = .error e → ∀ l, e ≠ .lex l
  failures : ∀ e ∈ r.failures, ∀ l, e ≠ .lex l

namespace IsLexed

variable {r : Reading} {t : Token} {place : Nat}

theorem start : Reading.start.IsLexed where
  stage h    := by cases h
  failures _ := by simp [Reading.start]

theorem add (h : r.IsLexed) {e : SyntaxError} (he : ∀ l, e ≠ .lex l) :
    ∀ e' ∈ r.failures ++ [e], ∀ l, e' ≠ .lex l := by
  intro e' hm
  cases List.mem_append.mp hm
  case inl hm => exact h.failures e' hm
  case inr hm => exact List.mem_singleton.mp hm ▸ he

theorem close (h : r.IsLexed) : (r.close t place).IsLexed := by
  unfold Reading.close
  split
  case h_1 e he => exact ⟨nofun, h.add <| h.stage he⟩
  case h_2      =>
    split
    case h_1 => exact ⟨nofun, h.failures⟩
    case h_2 => exact ⟨nofun, h.add fun _ => Stage.refuse_ne_lex⟩

theorem shift (h : r.IsLexed) : (r.shift t place).IsLexed := by
  unfold Reading.shift
  split
  case h_1 => exact h
  case h_2 =>
    split
    case h_1 => exact ⟨nofun, h.failures⟩
    case h_2 =>
      refine ⟨?_, h.failures⟩
      intro e he l
      exact Except.error.inj he ▸ Stage.refuse_ne_lex

theorem read (h : r.IsLexed) : (r.read t place).IsLexed := by
  unfold Reading.read
  split
  case isTrue  => exact h.close
  case isFalse => exact h.shift

theorem readAll (h : r.IsLexed) (ts : List PlacedToken) : (r.readAll ts).IsLexed := by
  induction ts generalizing r
  case nil        => exact h
  case cons hi => exact hi h.read

theorem closed {ts : List PlacedToken} {stop : Nat} :
    ((Reading.start.readAll ts).close .endOfInput stop).IsLexed :=
  (start.readAll ts).close

theorem outcome (h : r.IsLexed) :
    (∀ e, r.outcome.1 = .error e → ∀ l, e ≠ .lex l) ∧ ∀ e ∈ r.outcome.2, ∀ l, e ≠ .lex l := by
  unfold Reading.outcome
  split
  case h_1          => simp
  case h_2 e _ _ hf =>
    refine ⟨?_, by simp⟩
    intro e' he
    exact Except.error.inj he ▸ h.failures e (hf ▸ .head _)
  case h_3          => exact ⟨nofun, h.failures⟩

end IsLexed
end Reading

namespace Parser

variable {p : Parser} {e : LexError}

-- A parser comes up with a lex error if there is one ahead of it, wherever that is.
theorem parse_eq_lex_iff : (p.parse.1 = .error (.lex e)) ↔ p.ahead = .error e := by
  by_cases hc : p.current = .endOfInput
  case pos => simp [parse, ahead, hc]
  case neg =>
    cases ha : p.ahead
    case ok    =>
      obtain ⟨ho, _⟩ := Prod.ext_iff.mp <| parse_eq hc ha
      refine iff_of_false (fun h => ?_) (by simp)
      exact Reading.IsLexed.closed.outcome.left _ (ho.symm.trans h) e rfl
    case error => simp [(parse_of_ahead_error ha).left]

theorem ne_lex_of_mem_recovered {f : SyntaxError} (hm : f ∈ p.parse.2.recovered) :
    ∀ l, f ≠ .lex l := by
  by_cases hc : p.current = .endOfInput
  case pos => simp [parse, hc] at hm
  case neg =>
    cases ha : p.ahead
    case ok    =>
      obtain ⟨_, hr⟩ := Prod.ext_iff.mp <| parse_eq hc ha
      exact Reading.IsLexed.closed.outcome.right f (hr.subst hm)
    case error => simp [(parse_of_ahead_error ha).right] at hm

end Parser

theorem parse_eq_lex_iff_placed {text : String} {e : LexError} :
    (parse text = .error (.lex e)) ↔ (Lexer.ofText text).placed = .error e := by
  rw [←Parser.ofLexer_bind_ahead]
  match hp : Parser.ofLexer (.ofText text) with
  | .error _ => simp [parse, hp, Bind.bind, Except.bind]
  | .ok p    => simpa [parse, hp, Bind.bind, Except.bind] using p.parse_eq_lex_iff

theorem tokenize_eq_error_iff {text : String} {e : LexError} :
    (tokenize text = .error e) ↔ (Lexer.ofText text).placed = .error e := by
  rw [tokenize, Lexer.tokens_eq_placed]
  cases (Lexer.ofText text).placed <;> simp [Except.map]

-- The first lex error of a text is what comes of parsing it, whatever stands before or behind the
-- place of the error, and nothing else gives a lex error. No lex error is ever recovered from.
theorem parse_eq_lex_iff_tokenize (text : String) :
    (∀ e, (parse text = .error (.lex e)) ↔ tokenize text = .error e) ∧
    ((∃ s, parse text = .ok s) ∨ (∃ e, parse text = .error e ∧ ∀ l, e ≠ .lex l) ↔
      ∃ ts, tokenize text = .ok ts) ∧
    (∀ p, Parser.ofLexer (.ofText text) = .ok p → ∀ f ∈ p.parse.2.recovered, ∀ l, f ≠ .lex l) := by
  have hl : ∀ e, (parse text = .error (.lex e)) ↔ tokenize text = .error e := fun e =>
    parse_eq_lex_iff_placed.trans tokenize_eq_error_iff.symm
  refine ⟨hl, ?others, fun _ _ _ => Parser.ne_lex_of_mem_recovered⟩
  case others =>
    match ht : tokenize text with
    | .error e => simp [(hl e).mpr ht]
    | .ok ts   =>
      have hn : ∀ l, parse text ≠ .error (.lex l) := by
        intro l h
        simp [(hl l).mp h] at ht
      match hp : parse text with
      | .ok s    => simp
      | .error e =>
        refine iff_of_true (.inr ⟨e, rfl, ?_⟩) ⟨ts, rfl⟩
        intro l he
        exact hn l <| he ▸ hp

-- The error stands behind an alternative that is invalid, behind one that is valid, and within a
-- part that is skipped.
theorem parse_lex_error_anywhere :
    parse "b|/c\x7bd='e" = .error (.lex ⟨.unterminated, 7⟩) ∧
      parse "/a|/b/~c" = .error (.lex ⟨.loneTilde, 6⟩) ∧
      parse "/a b'\\c'|/d" = .error (.lex ⟨.invalidEscape 'c', 5⟩) := by
  have hlex {text : String} {e : LexError} (h : tokenize text = .error e) :
      parse text = .error (.lex e) :=
    parse_eq_lex_iff_tokenize text |>.left e |>.mpr h
  exact ⟨hlex <| by decide +kernel, hlex <| by decide +kernel, hlex <| by decide +kernel⟩

end TreeQuery
