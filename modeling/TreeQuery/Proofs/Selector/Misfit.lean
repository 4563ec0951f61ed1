import TreeQuery.Proofs.Selector.Slices

namespace TreeQuery

-- Some alternative starts with the tokens.
def Viable (ts : List Token) : Prop :=
  ∃ us, ∃ a : Alternative, a.DerivedFrom (ts ++ us)

section

variable {stage : Stage} {ts : List Token} {t : Token}

-- No stage is a dead end: from each of them, a few tokens complete the alternative.
theorem Stage.exists_completion (stage : Stage) :
    ∃ us : List Token, ∃ stage' : Stage, us.foldlM shift? stage = some stage' ∧
      stage'.close?.isSome := by
  match stage with
  | start           => exact ⟨[.slash, .star], _, rfl, rfl⟩
  | stars           => exact ⟨[.slash, .star], _, rfl, rfl⟩
  | slash _         => exact ⟨[.star], _, rfl, rfl⟩
  | step ..         => exact ⟨[], _, rfl, rfl⟩
  | openBrace ..    => exact ⟨[.quoted "", .equals, .star, .closeBrace], _, rfl, rfl⟩
  | key ..          => exact ⟨[.equals, .star, .closeBrace], _, rfl, rfl⟩
  | equals ..       => exact ⟨[.star, .closeBrace], _, rfl, rfl⟩
  | value ..        => exact ⟨[.closeBrace], _, rfl, rfl⟩
  | closeBrace _    => exact ⟨[], _, rfl, rfl⟩

-- An alternative starts with the tokens if they lead to a stage.
theorem viable_iff : Viable ts ↔ ∃ stage, ts.foldlM Stage.shift? .start = some stage := by
  constructor <;> intro h
  case mp =>
    have ⟨us, a, hd⟩ := h
    have ⟨_, hr, _⟩ := hd.run
    rw [List.foldlM_append] at hr
    have ⟨stage, hs, _⟩ := Option.bind_eq_some_iff.mp hr
    exact ⟨stage, hs⟩
  case mpr =>
    have ⟨stage, hs⟩ := h
    have ⟨us, stage', hr, hc⟩ := stage.exists_completion
    have ⟨a, hc⟩ := Option.isSome_iff_exists.mp hc
    refine ⟨us, a, Alternative.derivedFrom_iff.mpr ⟨stage', ?_, hc⟩⟩
    rw [List.foldlM_append, hs]
    exact hr

theorem not_viable_of_shift? (hs : ts.foldlM Stage.shift? .start = some stage)
    (ht : stage.shift? t = none) : ¬Viable (ts ++ [t]) := by
  intro h
  have ⟨_, hr⟩ := viable_iff.mp h
  simp [List.foldlM_append, hs, ht] at hr

theorem not_derivedFrom_of_close? {a : Alternative}
    (hs : ts.foldlM Stage.shift? .start = some stage) (hc : stage.close? = none) :
    ¬a.DerivedFrom ts := by
  intro h
  have ⟨_, hr, hc'⟩ := h.run
  cases hs.symm.trans hr
  cases hc.symm.trans hc'

end

-- The error names the token and its place. An alternative without a start is only placed.
inductive SyntaxError.IsAbout : SyntaxError → PlacedToken → Prop
  | unexpected (expected found place) : IsAbout (unexpected expected found place) (found, place)
  | missingRoot (found place)         : IsAbout (missingRoot place) (found, place)

theorem Stage.isAbout_refuse (stage : Stage) (t : PlacedToken) :
    (stage.refuse t.1 t.2).IsAbout t := by
  cases stage <;> constructor

theorem SyntaxError.IsAbout.position?_eq {e : SyntaxError} {t : PlacedToken} (h : e.IsAbout t) :
    e.position? = some t.2 := by
  cases h <;> rfl

-- An alternative can start with the tokens before this one, but not with this one behind them. At a
-- bar or at the end of the text, it lacks something.
structure Misfit (us : List Token) (t : Token) : Prop where
  viable     : Viable us
  not_viable : t ≠ .pipe → t ≠ .endOfInput → ¬Viable (us ++ [t])
  incomplete : t = .pipe ∨ t = .endOfInput → ∀ a : Alternative, ¬a.DerivedFrom us

namespace Misfit

variable {us : List Token} {t : Token} {stage : Stage}

theorem of_shift? (hs : us.foldlM Stage.shift? .start = some stage) (ht : stage.shift? t = none)
    (hp : t ≠ .pipe) (he : t ≠ .endOfInput) : Misfit us t where
  viable           := viable_iff.mpr ⟨stage, hs⟩
  not_viable _ _   := not_viable_of_shift? hs ht
  incomplete hlast := (hlast.elim hp he).elim

theorem of_close? (hs : us.foldlM Stage.shift? .start = some stage) (hc : stage.close? = none)
    (hl : t = .pipe ∨ t = .endOfInput) : Misfit us t where
  viable           := viable_iff.mpr ⟨stage, hs⟩
  not_viable hp he := (hl.elim hp he).elim
  incomplete _ _   := not_derivedFrom_of_close? hs hc

end Misfit

-- The error is about the first token that does not fit into its alternative, which is read from the
-- last bar on.
structure SyntaxError.Blames (e : SyntaxError) (ts : List PlacedToken) (t : PlacedToken) :
    Prop where
  isAbout : e.IsAbout t
  misfit  : ∃ front us rest, ts = front ++ (us ++ t :: rest) ∧ (∀ u ∈ front.getLast?, u.1 = .pipe) ∧
    (∀ u ∈ us, u.1 ≠ .pipe) ∧ Misfit (us.map Prod.fst) t.1

theorem SyntaxError.Blames.append {e : SyntaxError} {ts us : List PlacedToken} {t : PlacedToken}
    (h : e.Blames ts t) : e.Blames (ts ++ us) t := by
  have ⟨front, vs, rest, ht, hm⟩ := h.misfit
  exact ⟨h.isAbout, front, vs, rest ++ us, by simp [ht], hm⟩

-- What is wrong with a slice is the first token that does not fit, or that it ends too early.
theorem exists_misfit_of_readSlice {us : List PlacedToken} {last : PlacedToken} {e : SyntaxError}
    (hb : ∀ u ∈ us, u.1 ≠ .pipe ∧ u.1 ≠ .endOfInput) (hl : last.1 = .pipe ∨ last.1 = .endOfInput)
    (h : readSlice us last.1 last.2 = .error e) :
    ∃ t, e.IsAbout t ∧ ∃ vs rest, us ++ [last] = vs ++ t :: rest ∧ (∀ v ∈ vs, v.1 ≠ .pipe) ∧
      Misfit (vs.map Prod.fst) t.1 := by
  rw [readSlice] at h
  cases hr : Stage.start.readAll us
  case error e' =>
    rw [hr] at h
    cases h
    obtain ⟨vs, t, rest, stage, hu, hs, hn, he⟩ := Stage.exists_misfit_of_readAll hr
    have hv : ∀ v ∈ vs, v.1 ≠ .pipe := fun v hm => (hb v <| hu ▸ List.mem_append_left _ hm).left
    obtain ⟨hp, he'⟩ := hb t <| hu ▸ List.mem_append_right _ (.head _)
    have hm := Misfit.of_shift? (Stage.readAll_eq_ok_iff.mp hs) hn hp he'
    exact ⟨t, he ▸ stage.isAbout_refuse t, vs, rest ++ [last], by simp [hu], hv, hm⟩
  case ok stage =>
    cases hc : stage.close? <;> simp only [hr, Bind.bind, Except.bind, Stage.finish, hc] at h
    case some => cases h
    case none =>
      have hv : ∀ u ∈ us, u.1 ≠ .pipe := fun u hu => (hb u hu).left
      have hm := Misfit.of_close? (Stage.readAll_eq_ok_iff.mp hr) hc hl
      exact ⟨last, Except.error.inj h ▸ stage.isAbout_refuse last, us, [], rfl, hv, hm⟩

-- Each of the errors is about a token of its own, and the tokens come in the order of the text.
def Reports (es : List SyntaxError) (ts : List PlacedToken) : Prop :=
  ∃ misfits, misfits.Sublist ts ∧ List.Forall₂ (fun e t => e.Blames ts t) es misfits

namespace Reports

variable {es : List SyntaxError} {ts us : List PlacedToken} {e : SyntaxError}

theorem nil : Reports [] ts :=
  ⟨[], List.nil_sublist _, .nil⟩

theorem append (h : Reports es ts) : Reports es (ts ++ us) := by
  have ⟨misfits, hs, hb⟩ := h
  exact ⟨misfits, hs.trans <| List.sublist_append_left .., hb.imp fun _ _ => .append⟩

theorem exists_blames (h : Reports (e :: es) ts) : ∃ t ∈ ts, e.Blames ts t := by
  have ⟨misfits, hs, hb⟩ := h
  cases hb
  case cons t _ hb _ => exact ⟨t, hs.subset <| .head _, hb⟩

-- In a text, one token starts behind the other.
theorem exists_places (h : Reports es ts) (ht : ts.Pairwise fun t u => t.2 < u.2) :
    ∃ places : List Nat, es.map SyntaxError.position? = places.map some ∧
      places.Pairwise (· < ·) := by
  have ⟨misfits, hs, hb⟩ := h
  refine ⟨misfits.map Prod.snd, ?_, List.pairwise_map.mpr <| ht.sublist hs⟩
  rw [List.map_map, ←List.forall₂_eq_eq_eq, List.forall₂_map_left_iff, List.forall₂_map_right_iff]
  exact hb.imp fun _ _ hb => hb.isAbout.position?_eq

end Reports

namespace Reading

variable {r : Reading} {front us ts : List PlacedToken} {last : PlacedToken}

-- An alternative is over: what was reported before is still there, and perhaps one error more.
theorem reports_add (hf : ∀ u ∈ front.getLast?, u.1 = .pipe)
    (hb : ∀ u ∈ us, u.1 ≠ .pipe ∧ u.1 ≠ .endOfInput) (hl : last.1 = .pipe ∨ last.1 = .endOfInput)
    (h : Reports r.failures front) :
    Reports (r.add (readSlice us last.1 last.2)).failures (front ++ (us ++ [last])) := by
  match hr : readSlice us last.1 last.2 with
  | .ok _    => exact h.append
  | .error e =>
    have ⟨misfits, hs, hm⟩ := h
    have ⟨t, ha, vs, rest, he, hv, ht⟩ := exists_misfit_of_readSlice hb hl hr
    have hn : e.Blames (front ++ (us ++ [last])) t := ⟨ha, front, vs, rest, by rw [he], hf, hv, ht⟩
    have hm' : t ∈ us ++ [last] := he ▸ List.mem_append_right _ (.head _)
    refine ⟨misfits ++ [t], hs.append <| List.singleton_sublist.mpr hm', ?_⟩
    exact List.rel_append (hm.imp fun _ _ => .append) (.cons hn .nil)

-- Along the text, `us` are the tokens of the current alternative so far, and `front` is what stands
-- before it.
theorem reports_close_readAll (hf : ∀ u ∈ front.getLast?, u.1 = .pipe) (hs : r.stage = .ok .start)
    (hb : ∀ u ∈ us, u.1 ≠ .pipe ∧ u.1 ≠ .endOfInput) (ht : ∀ t ∈ ts, t.1 ≠ .endOfInput)
    (hl : last.1 = .endOfInput) (h : Reports r.failures front) :
    Reports ((r.readAll (us ++ ts)).close last.1 last.2).failures
      (front ++ (us ++ ts ++ [last])) := by
  induction ts generalizing r front us
  case nil =>
    rw [List.append_nil, close_readAll hs fun u hu => (hb u hu).left]
    exact reports_add hf hb (.inr hl) h
  case cons t ts hi =>
    have ⟨hn, ht⟩ := List.forall_mem_cons.mp ht
    by_cases hp : t.1 = .pipe
    case pos =>
      have hr : r.readAll (us ++ t :: ts) = (r.add <| readSlice us t.1 t.2).readAll ts := by
        rw [readAll_append, readAll_cons, read_of_pipe hp]
        rw [close_readAll hs fun u hu => (hb u hu).left]
      have hf' : ∀ u ∈ (front ++ (us ++ [t])).getLast?, u.1 = .pipe := by simp [hp]
      rw [hr]
      simpa using hi hf' stage_add (List.forall_mem_nil _) ht <| reports_add hf hb (.inl hp) h
    case neg =>
      rw [List.append_cons]
      exact hi hf hs (List.forall_mem_append.mpr ⟨hb, by simp [hp, hn]⟩) ht h

end Reading

-- A text is reported on by the errors of its alternatives, whether one of them is returned or all
-- are kept.
theorem Reports.of_outcome {r : Reading} {ts : List PlacedToken} (h : Reports r.failures ts) :
    (∀ e, r.outcome.1 = .error e → e ≠ .empty → ∃ t ∈ ts, e.Blames ts t) ∧
      Reports r.outcome.2 ts := by
  rw [Reading.outcome]
  split
  case h_1 =>
    exact ⟨fun e he hn => absurd (Except.error.inj he).symm hn, .nil⟩
  case h_2 hf =>
    refine ⟨fun e he _ => ?_, .nil⟩
    exact Except.error.inj he ▸ (hf ▸ h).exists_blames
  case h_3 => exact ⟨by simp, h⟩

theorem Spells.exists_reports {text : String} {us : List PlacedToken} {stop : Nat}
    (h : Spells 0 text.toList us stop) :
    let tokens := us ++ [(.endOfInput, stop)]
    ∃ p, Parser.ofLexer (.ofText text) = .ok p ∧
      (∀ e, p.parse.1 = .error e → e ≠ .empty → ∃ t ∈ tokens, e.Blames tokens t) ∧
      Reports p.parse.2.recovered tokens := by
  by_cases hu : us = []
  case pos =>
    obtain ⟨p, hp, hc⟩ := (hu ▸ h).exists_parser_nil
    refine ⟨p, hp, ?_⟩
    simp only [Parser.parse, hc, if_true]
    exact ⟨fun e he hn => absurd (Except.error.inj he).symm hn, .nil⟩
  case neg =>
    obtain ⟨p, hp, ho⟩ := h.exists_parser hu
    have he : ∀ t ∈ us, t.1 ≠ .endOfInput := fun t ht => (h.spellable t ht).ne_endOfInput
    have hr : Reports ((Reading.start.readAll us).close .endOfInput stop).failures
        (us ++ [(.endOfInput, stop)]) :=
      @Reading.reports_close_readAll .start [] [] us (.endOfInput, stop) (by simp) rfl (by simp) he
        rfl .nil
    obtain ⟨h₁, h₂⟩ := Prod.mk.inj ho
    exact ⟨p, hp, h₁ ▸ h₂ ▸ hr.of_outcome⟩

-- Each error is about the first token of an alternative that does not fit, or about the end of an
-- alternative that lacks something, and it gives the place of this token in the text. The errors
-- that are kept come in the order of these places.
theorem errors_point_at_misfits {text : String} {ts : List Token}
    (h : tokenize text = .ok (ts ++ [.endOfInput])) :
    ∃ us stop p, Spells 0 text.toList us stop ∧ ts = us.map Prod.fst ∧ stop = text.length ∧
      (∀ u ∈ us, u.1.spelling <+: text.toList.drop u.2) ∧
      Parser.ofLexer (.ofText text) = .ok p ∧
      let tokens := us ++ [(.endOfInput, stop)]
      (∀ e, p.parse.1 = .error e → e ≠ .empty → ∃ t ∈ tokens, e.Blames tokens t) ∧
      Reports p.parse.2.recovered tokens ∧
      ∃ places : List Nat, p.parse.2.recovered.map SyntaxError.position? = places.map some ∧
        places.Pairwise (· < ·) := by
  have ⟨us, stop, hs, hu⟩ := tokenize_eq_ok_append_iff.mp h
  have ⟨p, hp, he, hr⟩ := hs.exists_reports
  have hl : stop = text.length := by rw [hs.stop_eq, Nat.zero_add, String.length_toList]
  have ht : ∀ u ∈ us, u.1.spelling <+: ([] ++ text.toList).drop u.2 := hs.spelling_isPrefix rfl
  exact ⟨us, stop, p, hs, hu, hl, ht, hp, he, hr, hr.exists_places hs.pairwise_lt⟩

theorem recovered_point_at_misfits :
    ∃ p, Parser.ofLexer (.ofText "/a|b|/c d") = .ok p ∧
      p.parse.2.recovered = [.missingRoot 3, .unexpected .pipeOrEnd (.identifier "d") 8] ∧
      ∃ us, us.map Prod.fst = [.slash, .identifier "a", .pipe, .identifier "b", .pipe, .slash,
        .identifier "c", .identifier "d", .endOfInput] ∧ Reports p.parse.2.recovered us := by
  have ht : tokenize "/a|b|/c d" = .ok ([.slash, .identifier "a", .pipe, .identifier "b", .pipe,
      .slash, .identifier "c", .identifier "d"] ++ [.endOfInput]) := by decide +kernel
  have hp : Parser.ofLexer (.ofText "/a|b|/c d") =
      .ok ⟨.slash, 0, ⟨"a|b|/c d".toList, 1, 0⟩, []⟩ := rfl
  obtain ⟨us, stop, p, _, hu, _, _, hp', _, hr, _⟩ := errors_point_at_misfits ht
  cases hp.symm.trans hp'
  refine ⟨_, hp, by decide +kernel, _, ?_, hr⟩
  rw [List.map_append, ←hu]
  rfl

end TreeQuery
