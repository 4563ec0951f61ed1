import TreeQuery.Proofs.Selector.Recovery

namespace TreeQuery

-- Behind these tokens, more braces have been opened than closed.
def IsEnclosed (before : List Token) : Prop :=
  before.count .closeBrace < before.count .openBrace

instance {before : List Token} : Decidable (IsEnclosed before) :=
  inferInstanceAs (Decidable (_ < _))

namespace Reading

-- Reads a token if only a bar outside of all braces ends an alternative. A bar within braces is one
-- more token of the alternative, and it is skipped with the others if the alternative fails.
def readOutside (r : Reading) (before : List Token) (token : Token) (position : Nat) : Reading :=
  if token = .pipe ∧ ¬IsEnclosed before then
    r.close token position
  else
    r.shift token position

def readAllOutside (r : Reading) (before : List Token) : List PlacedToken → Reading
  | []      => r
  | t :: ts => (r.readOutside before t.1 t.2).readAllOutside (before ++ [t.1]) ts

section

variable {r : Reading} {before : List Token} {t : Token} {place : Nat}

theorem readOutside_of_isEnclosed (h : t = .pipe ∧ IsEnclosed before) :
    r.readOutside before t place = r.shift t place := by
  rw [readOutside, if_neg]
  exact fun hn => hn.right h.right

theorem readOutside_of_not_isEnclosed (h : ¬(t = .pipe ∧ IsEnclosed before)) :
    r.readOutside before t place = r.read t place := by
  by_cases hp : t = .pipe
  case pos =>
    have hb : ¬IsEnclosed before := fun hb => h ⟨hp, hb⟩
    simp [readOutside, read, hp, hb]
  case neg => simp [readOutside, read, hp]

end

-- All errors so far, with the one of the alternative whose rest is being skipped.
def pending (r : Reading) : List SyntaxError :=
  match r.stage with
  | .ok _    => r.failures
  | .error e => r.failures ++ [e]

-- What a step of the reading finds.
structure Adds (r r' : Reading) (as : List Alternative) (es : List SyntaxError) : Prop where
  alternatives : r'.alternatives = r.alternatives ++ as
  pending      : r'.pending = r.pending ++ es

variable {q q' r r' : Reading} {t : Token} {place : Nat} {before : List Token}
variable {ts us : List PlacedToken} {as as' : List Alternative} {es es' : List SyntaxError}

theorem pending_ne_nil {e : SyntaxError} (h : r.stage = .error e) : r.pending ≠ [] := by
  simp [pending, h]

-- Two readings at the same stage find the same.

theorem exists_adds_shift (stage : Except SyntaxError Stage) (t : Token) (place : Nat) :
    ∃ stage' es, ∀ r : Reading, r.stage = stage →
      (r.shift t place).stage = stage' ∧ r.Adds (r.shift t place) [] es := by
  match stage with
  | .error e  =>
    refine ⟨.error e, [], fun r hr => ⟨?_, ?_, ?_⟩⟩
    all_goals simp [shift, hr]
  | .ok stage =>
    cases hs : stage.shift? t
    case none        =>
      refine ⟨.error <| stage.refuse t place, [stage.refuse t place], fun r hr => ⟨?_, ?_, ?_⟩⟩
      all_goals simp [shift, pending, hr, hs]
    case some stage' =>
      refine ⟨.ok stage', [], fun r hr => ⟨?_, ?_, ?_⟩⟩
      all_goals simp [shift, pending, hr, hs]

theorem exists_adds_close (stage : Except SyntaxError Stage) (t : Token) (place : Nat) :
    ∃ as es, ∀ r : Reading, r.stage = stage → r.Adds (r.close t place) as es := by
  match stage with
  | .error e  =>
    refine ⟨[], [], fun r hr => ⟨?_, ?_⟩⟩
    all_goals simp [close, pending, hr]
  | .ok stage =>
    cases hc : stage.close?
    case none   =>
      refine ⟨[], [stage.refuse t place], fun r hr => ⟨?_, ?_⟩⟩
      all_goals simp [close, pending, hr, hc]
    case some a =>
      refine ⟨[a], [], fun r hr => ⟨?_, ?_⟩⟩
      all_goals simp [close, pending, hr, hc]

theorem stage_close : (r.close t place).stage = .ok .start := by
  rw [close_eq_add, stage_add]

-- A bar fits into no alternative, and if an alternative lacks something, the error is the same
-- whether the bar is refused or ends the alternative.
theorem close_pipe_cases (r : Reading) (place : Nat) :
    (r.close .pipe place).alternatives ≠ [] ∨
      r.close .pipe place = (r.shift .pipe place).close .pipe place := by
  match hr : r.stage with
  | .error _  => exact .inr <| by simp [shift, hr]
  | .ok stage =>
    cases hc : stage.close?
    case some => exact .inl <| by simp [close, hr, hc]
    case none => exact .inr <| by simp [close, shift, hr, hc, Stage.shift?_pipe]

theorem exists_error_of_shift_pipe (r : Reading) (place : Nat) :
    ∃ e, (r.shift .pipe place).stage = .error e := by
  cases hr : r.stage <;> simp [shift, hr, Stage.shift?_pipe]

-- What two readings have in common: `q` is where `r` is, or it skips the rest of an alternative of
-- which `r` may have read another part.
structure Follows (q r : Reading) : Prop where
  stage        : q.stage = r.stage ∨ ∃ e, q.stage = .error e
  alternatives : q.alternatives.Sublist r.alternatives
  first        : r.alternatives = [] → q.pending.head? = r.pending.head?

namespace Follows

theorem refl : r.Follows r where
  stage        := .inl rfl
  alternatives := .refl _
  first _      := rfl

-- Once `q` has found an error, this stays the first one of both readings.
theorem extend (h : q.Follows r) (hs : q'.stage = r'.stage ∨ ∃ e, q'.stage = .error e)
    (hq : q.Adds q' as' es') (hr : r.Adds r' as es) (ha : as'.Sublist as)
    (he : q.pending = [] → as = [] → es' = es) : q'.Follows r' where
  stage        := hs
  alternatives := by
    rw [hq.alternatives, hr.alternatives]
    exact h.alternatives.append ha
  first hn     := by
    have ⟨hn, has⟩ := List.append_eq_nil_iff.mp <| hr.alternatives.symm.trans hn
    rw [hq.pending, hr.pending, List.head?_append, List.head?_append, ←h.first hn]
    cases hp : q.pending
    case nil  => rw [he hp has]
    case cons => rfl

theorem skip {e : SyntaxError} (h : q.Follows r) (he : q.stage = .error e) (hr : r.Adds r' as es) :
    q.Follows r' :=
  have ha : q.Adds q [] [] := ⟨by simp, by simp⟩
  h.extend (.inr ⟨e, he⟩) ha hr (List.nil_sublist _) fun hn => absurd hn <| pending_ne_nil he

theorem shift (h : q.Follows r) : (q.shift t place).Follows (r.shift t place) := by
  have ⟨_, es, ha⟩ := exists_adds_shift r.stage t place
  have ⟨hr, har⟩ := ha r rfl
  rcases h.stage with hs | ⟨e, he⟩
  case inl =>
    have ⟨hq, haq⟩ := ha q hs
    exact h.extend (.inl <| hq.trans hr.symm) haq har .slnil fun _ _ => rfl
  case inr =>
    have hq : q.shift t place = q := by simp [Reading.shift, he]
    rw [hq]
    exact h.skip he har

theorem close (h : q.Follows r) : (q.close t place).Follows (r.close t place) := by
  have ⟨as, es, ha⟩ := exists_adds_close r.stage t place
  have hs : (q.close t place).stage = (r.close t place).stage := stage_close.trans stage_close.symm
  rcases h.stage with hq | ⟨e, he⟩
  case inl => exact h.extend (.inl hs) (ha q hq) (ha r rfl) (.refl _) fun _ _ => rfl
  case inr =>
    have haq : q.Adds (q.close t place) [] [] := by
      constructor <;> simp [Reading.close, pending, he]
    exact h.extend (.inl hs) haq (ha r rfl) (List.nil_sublist _)
      fun hn => absurd hn <| pending_ne_nil he

-- Within braces, a bar makes `q` skip, while `r` goes on with the next alternative.
theorem shift_close (h : q.Follows r) : (q.shift .pipe place).Follows (r.close .pipe place) := by
  have ⟨e, he⟩ := q.exists_error_of_shift_pipe place
  rcases r.close_pipe_cases place with hn | hr
  case inl =>
    have ⟨as, es, ha⟩ := exists_adds_close r.stage .pipe place
    have ⟨_, _, haq⟩ := exists_adds_shift q.stage .pipe place
    have ha := (ha r rfl).alternatives
    have haq := (haq q rfl).right.alternatives
    refine ⟨.inr ⟨e, he⟩, ?_, fun hn' => absurd hn' hn⟩
    rw [ha, haq]
    exact h.alternatives.append (List.nil_sublist _)
  case inr =>
    have ⟨as, es, ha⟩ := exists_adds_close (r.shift .pipe place).stage .pipe place
    exact hr ▸ h.shift.skip he (ha _ rfl)

theorem read (h : q.Follows r) : (q.read t place).Follows (r.read t place) := by
  unfold Reading.read
  split
  case isTrue  => exact h.close
  case isFalse => exact h.shift

theorem readAll (h : q.Follows r) : (q.readAllOutside before ts).Follows (r.readAll ts) := by
  induction ts generalizing q r before
  case nil => exact h
  case cons t ts hi =>
    rw [readAllOutside, readAll_cons]
    apply hi
    by_cases hb : t.1 = .pipe ∧ IsEnclosed before
    case pos =>
      rw [readOutside_of_isEnclosed hb, read_of_pipe hb.left, hb.left]
      exact h.shift_close
    case neg =>
      rw [readOutside_of_not_isEnclosed hb]
      exact h.read

end Follows

-- Each bar that ends an alternative leaves one more alternative or one more error.

def size (r : Reading) : Nat :=
  r.alternatives.length + r.failures.length

theorem size_shift : (r.shift t place).size = r.size := by
  unfold shift
  split <;> try rfl
  split <;> rfl

theorem size_close : (r.close t place).size = r.size + 1 := by
  rw [close_eq_add]
  unfold add
  split <;> simp only [size, List.length_append, List.length_singleton] <;> omega

theorem size_read_le {n : Nat} (h : q.size + n ≤ r.size) :
    (q.read t place).size + n ≤ (r.read t place).size := by
  unfold read
  split <;> simp only [size_close, size_shift] <;> omega

theorem size_readAllOutside_le {n : Nat} (h : q.size + n ≤ r.size) :
    (q.readAllOutside before ts).size + n ≤ (r.readAll ts).size := by
  induction ts generalizing q r before
  case nil => exact h
  case cons t ts hi =>
    rw [readAllOutside, readAll_cons]
    apply hi
    by_cases hb : t.1 = .pipe ∧ IsEnclosed before
    case pos =>
      rw [readOutside_of_isEnclosed hb, read_of_pipe hb.left, size_close, size_shift]
      omega
    case neg =>
      rw [readOutside_of_not_isEnclosed hb]
      exact size_read_le h

theorem readAllOutside_append :
    r.readAllOutside before (ts ++ us) =
      (r.readAllOutside before ts).readAllOutside (before ++ ts.map Prod.fst) us := by
  induction ts generalizing r before
  case nil => simp [readAllOutside]
  case cons hi => simp [readAllOutside, hi]

theorem readAllOutside_eq_readAll
    (h : ∀ front rest, ts.map Prod.fst = front ++ .pipe :: rest → ¬IsEnclosed (before ++ front)) :
    r.readAllOutside before ts = r.readAll ts := by
  induction ts generalizing r before
  case nil => rfl
  case cons t ts hi =>
    have hb : ¬(t.1 = .pipe ∧ IsEnclosed before) := by
      intro ⟨hp, hb⟩
      exact h [] _ (by rw [List.map_cons, hp, List.nil_append]) (by simpa using hb)
    rw [readAllOutside, readOutside_of_not_isEnclosed hb, readAll_cons]
    apply hi
    intro front rest hf
    rw [←List.append_cons]
    exact h (t.1 :: front) rest (by rw [List.map_cons, hf, List.cons_append])

theorem size_readAllOutside_lt {front rest : List Token}
    (ht : ts.map Prod.fst = front ++ .pipe :: rest) (hb : IsEnclosed (before ++ front))
    (h : q.size ≤ r.size) : (q.readAllOutside before ts).size < (r.readAll ts).size := by
  obtain ⟨us, vs, rfl, rfl, hv⟩ := List.map_eq_append_iff.mp ht
  obtain ⟨t, vs, rfl, hp, rfl⟩ := List.map_eq_cons_iff.mp hv
  have hu : (q.readAllOutside before us).size + 0 ≤ (r.readAll us).size := size_readAllOutside_le h
  rw [readAllOutside_append, readAll_append, readAllOutside, readAll_cons,
    readOutside_of_isEnclosed ⟨hp, hb⟩, read_of_pipe hp]
  refine Nat.lt_of_succ_le <| size_readAllOutside_le (n := 1) ?_
  rw [size_close, size_shift]
  omega

theorem outcome_of_nil (h : r.alternatives = []) :
    r.outcome = (.error <| r.failures.head?.getD .empty, []) := by
  cases hf : r.failures <;> simp [outcome, h, hf]

theorem size_eq_of_outcome_eq {s : Selector} (h : r.outcome = q.outcome)
    (hs : r.outcome.1 = .ok s) : r.size = q.size := by
  obtain ⟨hn, hr⟩ := of_outcome_eq_ok hs
  obtain ⟨_, hq⟩ := of_outcome_eq_ok <| h ▸ hs
  rw [outcome_of_alternatives (hr ▸ hn), outcome_of_alternatives (hq ▸ hn)] at h
  rw [size, size, ←hr, ←hq, (Prod.mk.inj h).right]

namespace Follows

theorem outcome_eq {s s' : Stage} {e : SyntaxError} (h : q.Follows r) (hq : q.stage = .ok s)
    (hr : r.stage = .ok s') (he : r.outcome.1 = .error e) : r.outcome = q.outcome := by
  have hn := alternatives_of_outcome_eq_error he
  have hn' := List.sublist_nil.mp <| hn ▸ h.alternatives
  have hf := h.first hn
  simp only [pending, hq, hr] at hf
  rw [outcome_of_nil hn, outcome_of_nil hn', hf]

theorem exists_outcome_eq_ok {s : Selector} (h : q.Follows r) (hs : q.outcome.1 = .ok s) :
    ∃ s', r.outcome.1 = .ok s' ∧ s.alternatives.Sublist s'.alternatives := by
  obtain ⟨hn, hq⟩ := of_outcome_eq_ok hs
  have hr : r.alternatives ≠ [] := by
    intro hr
    exact hn <| hq.trans <| List.sublist_nil.mp <| hr ▸ h.alternatives
  rw [outcome_of_alternatives hr]
  exact ⟨_, rfl, hq ▸ h.alternatives⟩

end Follows

-- A selector comes out of both readings alike only if they find the same number of alternatives.
theorem outcome_eq_readAllOutside_iff {s : Selector}
    (h : ((r.readAll ts).close t place).outcome.1 = .ok s) :
    ((r.readAll ts).close t place).outcome = ((r.readAllOutside [] ts).close t place).outcome ↔
      ∀ front rest, ts.map Prod.fst = front ++ .pipe :: rest → ¬IsEnclosed front := by
  constructor
  case mp  =>
    intro he front rest ht hb
    have hlt : (r.readAllOutside [] ts).size < (r.readAll ts).size :=
      size_readAllOutside_lt ht hb <| Nat.le_refl _
    have hsize := size_eq_of_outcome_eq he h
    rw [size_close, size_close] at hsize
    omega
  case mpr =>
    intro hb
    rw [readAllOutside_eq_readAll]
    simpa using hb

end Reading

namespace Slice

variable {s : Slice} {us : List Token} {a : Alternative}

theorem mem_alternatives_iff (h : IsSlice s.text us) : a ∈ s.alternatives ↔ a.DerivedFrom us := by
  have hm : a ∈ s.alternatives ↔ parse s.text = .ok { alternatives := [a] } := by
    rcases parse_of_isSlice ⟨us, h⟩ with ⟨_, hp⟩ | ⟨_, hp⟩ <;> simp [alternatives, hp, eq_comm]
  rw [hm]
  by_cases hu : us = []
  case neg => simp [parse_eq_ok_iff h.left hu h.right]
  case pos =>
    obtain ⟨ts, stop, hs, ht, _⟩ := h.exists_spells
    cases List.map_eq_nil_iff.mp <| ht.symm.trans hu
    refine iff_of_false (by simp [parse_of_spells_nil hs]) fun hd => hd.ne_nil hu

theorem mem_flatMap_alternatives_iff {parts : List String} {tss : List (List Token)}
    (h : List.Forall₂ IsSlice parts tss) (offset : Nat) :
    a ∈ (ofParts offset parts).flatMap alternatives ↔ ∃ us ∈ tss, a.DerivedFrom us := by
  induction h generalizing offset
  case nil => simp [ofParts]
  case cons text us parts tss h hs hi =>
    cases hs
    case nil => simp [ofParts, mem_alternatives_iff (s := ⟨text, _, _⟩) h]
    case cons => simp [ofParts, mem_alternatives_iff (s := ⟨text, _, _⟩) h, hi]

end Slice

-- The alternatives of a selector are what the grammar derives from the runs of tokens between bars.
theorem mem_alternatives_iff_of_parse {text : String} {ts : List Token} {s : Selector}
    {a : Alternative} (h : tokenize text = .ok (ts ++ [.endOfInput])) (hs : parse text = .ok s) :
    a ∈ s.alternatives ↔ ∃ run ∈ ts.splitOn .pipe, a.DerivedFrom run := by
  obtain ⟨ts', parts, _, hp, _, _, _, ha, _⟩ := exists_sliced_of_parse_eq_ok hs
  cases List.append_cancel_right <| Except.ok.inj <| hp.tokenize_eq.symm.trans h
  rw [ha, Slice.mem_flatMap_alternatives_iff hp.slices]

-- Every bar ends an alternative, and behind it the next one is read, be it within braces. Compared
-- with a reading that heeds only the bars outside of all braces, no alternative is lost and errors
-- are the same, but a selector comes out the same only if there is no bar within braces.
theorem parse_resumes_at_each_bar {text : String} {ts : List Token}
    (h : tokenize text = .ok (ts ++ [.endOfInput])) (ht : ts ≠ []) :
    ∃ us stop p, Spells 0 text.toList us stop ∧ ts = us.map Prod.fst ∧
      Parser.ofLexer (.ofText text) = .ok p ∧
      let result  := (p.parse.1, p.parse.2.recovered)
      let outside := ((Reading.start.readAllOutside [] us).close .endOfInput stop).outcome
      (∀ e, result.1 = .error e → result = outside) ∧
      (∀ s, outside.1 = .ok s →
        ∃ s', result.1 = .ok s' ∧ s.alternatives.Sublist s'.alternatives) ∧
      ∀ s, result.1 = .ok s →
        (result = outside ↔ ∀ front rest, ts = front ++ .pipe :: rest → ¬IsEnclosed front) ∧
        ∀ a, a ∈ s.alternatives ↔ ∃ run ∈ ts.splitOn .pipe, a.DerivedFrom run := by
  have ⟨us, stop, hs, hu⟩ := tokenize_eq_ok_append_iff.mp h
  have hne : us ≠ [] := by
    intro hn
    exact ht <| hu.trans <| hn ▸ List.map_nil
  have ⟨p, hp, ho⟩ := hs.exists_parser hne
  have hf : ((Reading.start.readAllOutside [] us).close .endOfInput stop).Follows
      ((Reading.start.readAll us).close .endOfInput stop) := Reading.Follows.refl.readAll.close
  refine ⟨us, stop, p, hs, hu, hp, ?_⟩
  rw [ho]
  refine ⟨fun e he => ?error, fun s hs => ?kept, fun s hs => ⟨?same, fun a => ?mem⟩⟩
  case error => exact hf.outcome_eq Reading.stage_close Reading.stage_close he
  case kept  => exact hf.exists_outcome_eq_ok hs
  case same  => exact hu ▸ Reading.outcome_eq_readAllOutside_iff hs
  case mem   =>
    have hp : parse text = .ok s := by
      simp only [parse, hp]
      exact (Prod.mk.inj ho).left.trans hs
    exact mem_alternatives_iff_of_parse h hp

-- An error from within a filter is kept beside that of the filter.
theorem parse_resumes_within_filter :
    ∃ us stop p, Spells 0 "/a\x7bx|y\x7d|/b".toList us stop ∧
      Parser.ofLexer (.ofText "/a\x7bx|y\x7d|/b") = .ok p ∧
      p.parse.2.recovered = [.unexpected .equals .pipe 4, .missingRoot 5] ∧
      (p.parse.1, p.parse.2.recovered) ≠
        ((Reading.start.readAllOutside [] us).close .endOfInput stop).outcome := by
  have ht : tokenize "/a\x7bx|y\x7d|/b" = .ok ([.slash, .identifier "a", .openBrace,
      .identifier "x", .pipe, .identifier "y", .closeBrace, .pipe, .slash, .identifier "b"] ++
      [.endOfInput]) := by
    decide +kernel
  have hp : Parser.ofLexer (.ofText "/a\x7bx|y\x7d|/b") =
      .ok ⟨.slash, 0, ⟨"a\x7bx|y\x7d|/b".toList, 1, 0⟩, []⟩ := rfl
  obtain ⟨us, stop, p, hs, _, hp', _, _, hok⟩ := parse_resumes_at_each_bar ht (by simp)
  cases hp.symm.trans hp'
  refine ⟨us, stop, _, hs, hp, by decide +kernel, fun he => ?_⟩
  have hb := (hok ⟨[⟨.root, ⟨.named "b", none⟩, []⟩]⟩ (by decide +kernel)).left.mp he
  exact hb [.slash, .identifier "a", .openBrace, .identifier "x"] _ rfl (by decide)

-- An alternative from within a filter takes the place of the error about this filter.
theorem alternative_within_filter :
    let run : List Token := [.slash, .identifier "c"]
    let filter : List Token :=
      [.openBrace, .identifier "b", .pipe] ++ run ++ [.pipe, .identifier "d", .closeBrace]
    let ts : List Token := [.slash, .identifier "a"] ++ filter
    let a : Alternative := ⟨.root, ⟨.named "c", none⟩, []⟩
    tokenize "/a\x7bb|/c|d\x7d" = .ok (ts ++ [.endOfInput]) ∧ a.DerivedFrom run ∧
      parse "/a\x7bb|/c|d\x7d" = .ok { alternatives := [a] } ∧
      ((Reading.start.readAllOutside [] (ts.zip <| List.range 10)).close .endOfInput 10).outcome =
        (.error <| .unexpected .equals .pipe 4, []) := by
  intro run filter ts a
  have hd : a.DerivedFrom run := .root (.bare <| .named _) .nil
  exact ⟨by decide +kernel, hd, by decide +kernel, by decide +kernel⟩

end TreeQuery
