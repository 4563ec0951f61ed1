import TreeQuery.Proofs.Selector.Derivation
import TreeQuery.Proofs.Token.Layout
import TreeQuery.Selector.Parser

namespace TreeQuery

namespace Stage

-- The stage behind the given tokens, or the error about the first of them that does not fit.
def readAll (stage : Stage) : List PlacedToken → Except SyntaxError Stage
  | []               => .ok stage
  | (t, place) :: ts =>
    match stage.shift? t with
    | some stage' => stage'.readAll ts
    | none        => .error <| stage.refuse t place

-- The alternative that ends before the token `found`.
def finish (stage : Stage) (found : Token) (place : Nat) : Except SyntaxError Alternative :=
  match stage.close? with
  | some a => .ok a
  | none   => .error <| stage.refuse found place

variable {stage stage' : Stage} {found : Token} {place : Nat} {a : Alternative}

theorem readAll_eq_ok_iff {ts : List PlacedToken} :
    (stage.readAll ts = .ok stage') ↔ (ts.map Prod.fst).foldlM shift? stage = some stage' := by
  induction ts generalizing stage
  case nil => simp [readAll]
  case cons t ts hi => cases hs : stage.shift? t.1 <;> simp [readAll, hs, hi]

theorem finish_eq_ok_iff : (stage.finish found place = .ok a) ↔ stage.close? = some a := by
  cases hc : stage.close? <;> simp [finish, hc]

end Stage

-- Reads the tokens of a single alternative, which the token `found` ends.
def readSlice (ts : List PlacedToken) (found : Token) (place : Nat) :
    Except SyntaxError Alternative := do
  let stage ← Stage.start.readAll ts
  stage.finish found place

theorem readSlice_eq_ok_iff {ts : List PlacedToken} {found place a} :
    (readSlice ts found place = .ok a) ↔ a.DerivedFrom (ts.map Prod.fst) := by
  rw [Alternative.derivedFrom_iff, readSlice]
  constructor <;> intro h
  case mp =>
    match hr : Stage.start.readAll ts with
    | .error _  => simp [hr, Bind.bind, Except.bind] at h
    | .ok stage =>
      rw [hr] at h
      exact ⟨stage, Stage.readAll_eq_ok_iff.mp hr, Stage.finish_eq_ok_iff.mp h⟩
  case mpr =>
    have ⟨stage, hr, hc⟩ := h
    rw [Stage.readAll_eq_ok_iff.mpr hr]
    exact Stage.finish_eq_ok_iff.mpr hc

theorem mapError_map {x : Except ε α} {f : ε → ε'} {g : α → β} :
    (x.map g).mapError f = (x.mapError f).map g := by
  cases x <;> rfl

theorem Stage.refuse_ne_lex {stage : Stage} {found : Token} {place : Nat} {l : LexError} :
    stage.refuse found place ≠ .lex l := by
  cases stage <;> simp [refuse]

-- Reading stops at the first token that does not fit.
theorem Stage.exists_misfit_of_readAll {stage : Stage} {ts : List PlacedToken} {e}
    (h : stage.readAll ts = .error e) :
    ∃ us t rest stage', ts = us ++ t :: rest ∧ stage.readAll us = .ok stage' ∧
      stage'.shift? t.1 = none ∧ e = stage'.refuse t.1 t.2 := by
  induction ts generalizing stage
  case nil => cases h
  case cons t ts hi =>
    cases hs : stage.shift? t.1 <;> simp only [readAll, hs] at h
    case none   => exact ⟨[], t, ts, stage, rfl, rfl, hs, (Except.error.inj h).symm⟩
    case some _ =>
      have ⟨us, u, rest, stage', ht, hr, hn, he⟩ := hi h
      have hr : stage.readAll (t :: us) = .ok stage' := by simp [readAll, hs, hr]
      exact ⟨t :: us, u, rest, stage', by rw [ht, List.cons_append], hr, hn, he⟩

-- Whatever is wrong with a slice is said about one of its tokens, or about its end.
theorem exists_refuse_of_readSlice {ts : List PlacedToken} {found place e}
    (h : readSlice ts found place = .error e) :
    ∃ stage t place, e = Stage.refuse stage t place := by
  rw [readSlice] at h
  match hr : Stage.start.readAll ts with
  | .error _  =>
    rw [hr] at h
    cases h
    have ⟨_, t, _, stage, _, _, _, he⟩ := Stage.exists_misfit_of_readAll hr
    exact ⟨stage, t.1, t.2, he⟩
  | .ok stage =>
    cases hc : stage.close? <;> simp only [hr, Bind.bind, Except.bind, Stage.finish, hc] at h
    case none   => exact ⟨stage, found, place, (Except.error.inj h).symm⟩
    case some _ => cases h

theorem ne_lex_of_readSlice {ts : List PlacedToken} {found place e}
    (h : readSlice ts found place = .error e) : ∀ l, e ≠ .lex l := by
  have ⟨_, _, _, he⟩ := exists_refuse_of_readSlice h
  exact fun _ => he ▸ Stage.refuse_ne_lex

theorem ne_empty_of_readSlice {ts : List PlacedToken} {found place e}
    (h : readSlice ts found place = .error e) : e ≠ .empty := by
  have ⟨stage, _, _, he⟩ := exists_refuse_of_readSlice h
  cases stage <;> simp [he, Stage.refuse]

-- An error whose places are counted in another way.
def SyntaxError.relocate (f : Nat → Nat) : SyntaxError → SyntaxError
  | lex e                       => lex { e with position := f e.position }
  | unexpected expected t place => unexpected expected t (f place)
  | missingRoot place           => missingRoot (f place)
  | empty                       => empty

def SyntaxError.unplaced (e : SyntaxError) : SyntaxError :=
  e.relocate fun _ => 0

-- An error where the token `t` stands in place of the end of input.
def SyntaxError.endedBy (t : Token) : SyntaxError → SyntaxError
  | unexpected expected .endOfInput place => unexpected expected t place
  | e                                     => e

section

variable {stage : Stage} {ts : List PlacedToken} {f : Nat → Nat} {t found : Token} {place : Nat}

theorem Stage.readAll_relocate :
    stage.readAll (ts.map <| .relocate f) = (stage.readAll ts).mapError (.relocate f) := by
  induction ts generalizing stage
  case nil => rfl
  case cons t ts hi =>
    cases hs : stage.shift? t.1
    case none   => cases stage <;> simp [readAll, PlacedToken.relocate, hs] <;> rfl
    case some _ => simp [readAll, PlacedToken.relocate, hs, hi]

theorem readSlice_relocate :
    readSlice (ts.map <| .relocate f) found (f place) =
      (readSlice ts found place).mapError (.relocate f) := by
  rw [readSlice, readSlice, Stage.readAll_relocate]
  match Stage.start.readAll ts with
  | .error _  => rfl
  | .ok stage => cases stage <;> rfl

theorem unplaced_readSlice {us : List PlacedToken} {place' : Nat}
    (h : ts.map Prod.fst = us.map Prod.fst) :
    (readSlice ts found place).mapError SyntaxError.unplaced =
      (readSlice us found place').mapError SyntaxError.unplaced := by
  have hm (vs : List PlacedToken) :
      vs.map (PlacedToken.relocate fun _ => 0) = (vs.map Prod.fst).map fun t => (t, 0) := by
    rw [List.map_map]
    rfl
  have hr (vs : List PlacedToken) (place : Nat) :
      readSlice (vs.map <| PlacedToken.relocate fun _ => 0) found 0 =
        (readSlice vs found place).mapError SyntaxError.unplaced :=
    readSlice_relocate
  rw [←hr ts place, ←hr us place', hm, hm, h]

theorem Stage.readAll_endedBy (ht : ∀ t ∈ ts, t.1 ≠ .endOfInput) :
    (stage.readAll ts).mapError (.endedBy t) = stage.readAll ts := by
  induction ts generalizing stage
  case nil => rfl
  case cons u ts hi =>
    have ⟨hu, ht⟩ := List.forall_mem_cons.mp ht
    cases hs : stage.shift? u.1
    case none   =>
      cases stage <;> simp [readAll, hs, Except.mapError, refuse, SyntaxError.endedBy, hu]
    case some _ => simp [readAll, hs, hi ht]

theorem readSlice_endedBy (ht : ∀ t ∈ ts, t.1 ≠ .endOfInput) :
    readSlice ts t place = (readSlice ts .endOfInput place).mapError (.endedBy t) := by
  have hr : (Stage.start.readAll ts).mapError (.endedBy t) = Stage.start.readAll ts :=
    Stage.readAll_endedBy ht
  rw [readSlice, readSlice]
  match hs : Stage.start.readAll ts with
  | .error e  =>
    rw [hs] at hr
    exact congrArg Except.error (Except.error.inj hr).symm
  | .ok stage => cases stage <;> rfl

end

namespace Reading

variable {r : Reading} {ts us : List PlacedToken} {found : Token} {place : Nat}

def readAll (r : Reading) (ts : List PlacedToken) : Reading :=
  ts.foldl (fun r (t, place) => r.read t place) r

-- Takes note of what came out of an alternative and goes on with the next one.
def add (r : Reading) : Except SyntaxError Alternative → Reading
  | .ok a    => { r with stage := .ok .start, alternatives := r.alternatives ++ [a] }
  | .error e => { r with stage := .ok .start, failures := r.failures ++ [e] }

theorem stage_add {x : Except SyntaxError Alternative} : (r.add x).stage = .ok .start := by
  cases x <;> rfl

theorem readAll_append : r.readAll (ts ++ us) = (r.readAll ts).readAll us :=
  List.foldl_append

theorem readAll_cons {t : PlacedToken} : r.readAll (t :: ts) = (r.read t.1 t.2).readAll ts :=
  rfl

theorem read_of_pipe {t : Token} (h : t = .pipe) : r.read t place = r.close t place := by
  rw [read, if_pos h]

theorem close_eq_add :
    r.close found place = r.add (do let stage ← r.stage; stage.finish found place) := by
  match hs : r.stage with
  | .error e  => simp [close, hs, add, Bind.bind, Except.bind]
  | .ok stage =>
    cases hc : stage.close? <;> simp [close, hs, hc, Stage.finish, add, Bind.bind, Except.bind]

theorem readAll_eq (hp : ∀ t ∈ ts, t.1 ≠ .pipe) :
    r.readAll ts = { r with stage := do let stage ← r.stage; stage.readAll ts } := by
  induction ts generalizing r
  case nil =>
    cases hs : r.stage <;> simp [readAll, Stage.readAll, ←hs, Bind.bind, Except.bind]
  case cons t ts hi =>
    have ⟨ht, hp⟩ := List.forall_mem_cons.mp hp
    have hr : r.readAll (t :: ts) = (r.shift t.1 t.2).readAll ts := by
      simp [readAll, read, ht]
    rw [hr, hi hp]
    match hs : r.stage with
    | .error e  => simp [shift, hs, Bind.bind, Except.bind]
    | .ok stage =>
      cases hc : stage.shift? t.1 <;>
        simp [shift, hs, hc, Stage.readAll, Bind.bind, Except.bind]

-- Between two bars, a reading depends on nothing that came before.
theorem close_readAll (hs : r.stage = .ok .start) (hp : ∀ t ∈ ts, t.1 ≠ .pipe) :
    (r.readAll ts).close found place = r.add (readSlice ts found place) := by
  rw [close_eq_add, readAll_eq hp, hs]
  change add _ (readSlice ts found place) = _
  cases readSlice ts found place <;> rfl

-- What is left of a selector when all of its alternatives have been read: its alternatives, and the
-- errors of those that were dropped.
def outcome (r : Reading) : Except SyntaxError Selector × List SyntaxError :=
  match r.alternatives, r.failures with
  | [],           []       => (.error .empty, [])
  | [],           e :: _   => (.error e, [])
  | alternatives, failures => (.ok { alternatives }, failures)

end Reading

namespace Parser

variable {l : Lexer} {p : Parser} {r : Reading} {ts : List PlacedToken} {stop : Nat}

-- The tokens that a parser has not read yet, as a lexer lists them.
def ahead (p : Parser) : Except LexError (List PlacedToken × Nat) :=
  if p.current = .endOfInput then
    .ok ([], p.position)
  else
    p.lexer.placed.map fun (ts, stop) => ((p.current, p.position) :: ts, stop)

theorem ahead_of_next_token {t : Token} (hc : p.current ≠ .endOfInput)
    (hn : p.lexer.next = (.ok t, l)) :
    p.ahead = ({ p with current := t, position := l.tokenStart, lexer := l } : Parser).ahead.map
      fun (ts, stop) => ((p.current, p.position) :: ts, stop) := by
  by_cases ht : t = .endOfInput
  case pos =>
    cases ht
    simp [ahead, hc, Lexer.placed_of_next_endOfInput hn, Except.map]
  case neg =>
    simp only [ahead, hc, if_false, ht, Lexer.placed_of_next_token hn ht]

theorem ofLexer_bind_ahead : (ofLexer l >>= ahead) = l.placed := by
  match hn : l.next with
  | (.error e, _) => simp [ofLexer, hn, Lexer.placed_of_next_error hn, Bind.bind, Except.bind]
  | (.ok t, l')   =>
    simp only [ofLexer, hn, Bind.bind, Except.bind, ahead]
    split
    case isTrue h  => rw [Lexer.placed_of_next_endOfInput (h ▸ hn)]
    case isFalse h => rw [Lexer.placed_of_next_token hn h]

theorem run_of_endOfInput (hc : p.current = .endOfInput) :
    p.run r = (.ok <| r.close .endOfInput p.position, p) := by
  rw [run, dif_pos hc, hc]

theorem run_of_next_error {e : LexError} (hc : p.current ≠ .endOfInput)
    (hn : p.lexer.next = (.error e, l)) :
    p.run r =
      (.error e, { p with current := if r.takes p.current then .endOfInput else p.current
                          lexer   := l }) := by
  rw [run, dif_neg hc]
  split <;> simp_all

theorem run_of_next_token {t : Token} (hc : p.current ≠ .endOfInput)
    (hn : p.lexer.next = (.ok t, l)) :
    p.run r =
      ({ p with current := t, position := l.tokenStart, lexer := l } : Parser).run
        (r.read p.current p.position) := by
  rw [run, dif_neg hc]
  split
  case h_1 h => cases hn.symm.trans h
  case h_2 h => cases hn.symm.trans h; rfl

theorem run_eq :
    (p.run r).1 = p.ahead.map fun (ts, stop) => (r.readAll ts).close .endOfInput stop := by
  induction p, r using run.induct
  case case1 hc => simp [run_of_endOfInput hc, ahead, hc, Except.map, Reading.readAll]
  case case2 hc _ _ hn =>
    simp [run_of_next_error hc hn, ahead, hc, Lexer.placed_of_next_error hn, Except.map]
  case case3 p r hc t l hn _ hi =>
    rw [run_of_next_token hc hn, ahead_of_next_token hc hn, hi]
    cases Parser.ahead _ <;> rfl

theorem recovered_run : (p.run r).2.recovered = p.recovered := by
  induction p, r using run.induct
  case case1 hc             => rw [run_of_endOfInput hc]
  case case2 hc _ _ hn      => rw [run_of_next_error hc hn]
  case case3 hc _ _ hn _ hi => rw [run_of_next_token hc hn, hi]

theorem parse_eq (hc : p.current ≠ .endOfInput) (ha : p.ahead = .ok (ts, stop)) :
    (p.parse.1, p.parse.2.recovered) =
      ((Reading.start.readAll ts).close .endOfInput stop).outcome := by
  have hr := run_eq (p := { p with recovered := [] }) (r := Reading.start)
  have hv := recovered_run (p := { p with recovered := [] }) (r := Reading.start)
  have ha' : ({ p with recovered := [] } : Parser).ahead = p.ahead := rfl
  rw [ha', ha] at hr
  simp only [parse, hc, if_false]
  match hp : run { p with recovered := [] } .start with
  | (.error _, _) => simp [hp, Except.map] at hr
  | (.ok r, p')   =>
    simp only [hp, Except.map, Except.ok.injEq] at hr hv
    rw [←hr, Reading.outcome]
    cases ha : r.alternatives <;> cases hf : r.failures <;> simp only [ha, hf, hv]

theorem parse_of_ahead_error {e : LexError} (ha : p.ahead = .error e) :
    p.parse.1 = .error (.lex e) ∧ p.parse.2.recovered = [] := by
  have hc : p.current ≠ .endOfInput := by
    intro hc
    simp [ahead, hc] at ha
  have hr := run_eq (p := { p with recovered := [] }) (r := Reading.start)
  have hv := recovered_run (p := { p with recovered := [] }) (r := Reading.start)
  have ha' : ({ p with recovered := [] } : Parser).ahead = p.ahead := rfl
  rw [ha', ha] at hr
  simp only [parse, hc, if_false]
  match hp : run { p with recovered := [] } .start with
  | (.error _, _) =>
    rw [hp] at hr hv
    cases hr
    exact ⟨rfl, hv⟩
  | (.ok _, _)    => simp [hp, Except.map] at hr

end Parser

section

variable {text : String} {ts : List PlacedToken} {stop : Nat}

-- A text that spells at least one token starts a parser that has these tokens ahead.
theorem Spells.exists_parser (h : Spells 0 text.toList ts stop) (ht : ts ≠ []) :
    ∃ p, Parser.ofLexer (.ofText text) = .ok p ∧
      (p.parse.1, p.parse.2.recovered) =
        ((Reading.start.readAll ts).close .endOfInput stop).outcome := by
  have hl : (Lexer.ofText text).placed = .ok (ts, stop) := Lexer.placed_eq_ok_iff.mpr h
  rw [←Parser.ofLexer_bind_ahead] at hl
  match hp : Parser.ofLexer (.ofText text) with
  | .error _ => simp [hp, Bind.bind, Except.bind] at hl
  | .ok p    =>
    rw [hp] at hl
    refine ⟨p, rfl, Parser.parse_eq ?_ hl⟩
    intro hc
    simp [Parser.ahead, hc, Bind.bind, Except.bind] at hl
    exact ht hl.left

-- A text that cannot be cut into tokens is not parsed at all.
theorem parse_of_placed_error {e : LexError} (h : (Lexer.ofText text).placed = .error e) :
    parse text = .error (.lex e) := by
  rw [←Parser.ofLexer_bind_ahead] at h
  match hp : Parser.ofLexer (.ofText text) with
  | .error _ =>
    rw [hp] at h
    cases h
    simp [parse, hp]
  | .ok p    =>
    rw [hp] at h
    simp only [parse, hp, (Parser.parse_of_ahead_error h).left]

-- A text without tokens starts a parser that has nothing to read.
theorem Spells.exists_parser_nil (h : Spells 0 text.toList [] stop) :
    ∃ p, Parser.ofLexer (.ofText text) = .ok p ∧ p.current = .endOfInput := by
  have hl : (Lexer.ofText text).placed = .ok ([], stop) := Lexer.placed_eq_ok_iff.mpr h
  rw [←Parser.ofLexer_bind_ahead] at hl
  match hp : Parser.ofLexer (.ofText text) with
  | .error _ => simp [hp, Bind.bind, Except.bind] at hl
  | .ok p    =>
    rw [hp] at hl
    refine ⟨p, rfl, ?_⟩
    by_contra hc
    simp only [Bind.bind, Except.bind, Parser.ahead, hc, if_false] at hl
    cases hq : p.lexer.placed <;> simp [hq, Except.map] at hl

theorem parse_of_spells_nil (h : Spells 0 text.toList [] stop) : parse text = .error .empty := by
  have ⟨p, hp, hc⟩ := h.exists_parser_nil
  simp [parse, hp, Parser.parse, hc]

theorem tokenize_of_parse_eq_ok {s : Selector} (h : parse text = .ok s) :
    ∃ ts, ts ≠ [] ∧ tokenize text = .ok (ts ++ [.endOfInput]) := by
  match hl : (Lexer.ofText text).placed with
  | .error _       =>
    rw [parse_of_placed_error hl] at h
    contradiction
  | .ok (ts, stop) =>
    have hs : Spells 0 text.toList ts stop := Lexer.placed_eq_ok_iff.mp hl
    refine ⟨ts.map Prod.fst, ?_, tokenize_eq_ok_append_iff.mpr ⟨ts, stop, hs, rfl⟩⟩
    intro ht
    rw [List.map_eq_nil_iff.mp ht] at hs
    rw [parse_of_spells_nil hs] at h
    contradiction

theorem parse_of_spells (h : Spells 0 text.toList ts stop) (ht : ts ≠ []) :
    parse text = ((Reading.start.readAll ts).close .endOfInput stop).outcome.1 := by
  have ⟨p, hp, ho⟩ := h.exists_parser ht
  simp only [parse, hp, ←ho]

-- Without a bar, the text is a single alternative.
theorem parse_eq_readSlice (h : Spells 0 text.toList ts stop) (ht : ts ≠ [])
    (hb : ∀ t ∈ ts, t.1 ≠ .pipe) :
    parse text = (readSlice ts .endOfInput stop).map fun a => { alternatives := [a] } := by
  rw [parse_of_spells h ht, Reading.close_readAll rfl hb]
  cases readSlice ts .endOfInput stop <;> rfl

end
end TreeQuery
