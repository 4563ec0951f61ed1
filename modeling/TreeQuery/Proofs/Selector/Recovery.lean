import TreeQuery.Proofs.Selector.Acceptance

namespace TreeQuery

-- A part of a text between two bars, with the place where it starts and the token that ends it.
structure Slice where
  text   : String
  offset : Nat
  ending : Token

theorem SyntaxError.endedBy_relocate_ne_empty {e : SyntaxError} {f : Nat → Nat} {t : Token}
    (h : e ≠ .empty) : (e.relocate f).endedBy t ≠ .empty := by
  unfold relocate endedBy
  split <;> split at * <;> simp_all

namespace Slice

-- The slices of a text that is made of the given parts with bars between them.
def ofParts (offset : Nat) : List String → List Slice
  | []            => []
  | [text]        => [⟨text, offset, .endOfInput⟩]
  | text :: parts => ⟨text, offset, .pipe⟩ :: ofParts (offset + text.length + 1) parts

-- What the slice contributes to the selector when it is parsed alone.
def alternatives (s : Slice) : List Alternative :=
  match parse s.text with
  | .ok selector => selector.alternatives
  | .error _     => []

-- The error of parsing the slice alone, as it looks from the whole text.
def error? (s : Slice) : Option SyntaxError :=
  match parse s.text with
  | .ok _    => none
  | .error e => some <| (e.relocate (· + s.offset)).endedBy s.ending

-- A slice without tokens is no empty selector but an alternative that lacks its start.
def failure? (s : Slice) : Option SyntaxError :=
  s.error?.map fun e => if e = .empty then .missingRoot (s.offset + s.text.length) else e

end Slice

namespace Reading

variable {r : Reading} {s : Slice} {ts : List PlacedToken} {stop : Nat}

def join (r : Reading) (s : Slice) : Reading where
  stage        := .ok .start
  alternatives := r.alternatives ++ s.alternatives
  failures     := r.failures ++ s.failure?.toList

theorem foldl_join {ss : List Slice} (hr : r.stage = .ok .start) :
    ss.foldl join r =
      { stage        := .ok .start
        alternatives := r.alternatives ++ ss.flatMap Slice.alternatives
        failures     := r.failures ++ ss.filterMap Slice.failure? } := by
  induction ss generalizing r
  case nil => simp [←hr]
  case cons s ss hi =>
    rw [List.foldl_cons, hi rfl]
    cases hf : s.failure? <;> simp [join, hf]

-- Within the whole text, a slice is read as it is read alone.
theorem add_readSlice (h : Spells 0 s.text.toList ts stop) (hb : ∀ t ∈ ts, t.1 ≠ .pipe) :
    r.add (readSlice (ts.map <| .relocate (· + s.offset)) s.ending (stop + s.offset)) =
      r.join s := by
  by_cases ht : ts = []
  case pos =>
    have hs : stop + s.offset = s.offset + s.text.length := by
      rw [h.stop_eq, Nat.zero_add, String.length_toList, Nat.add_comm]
    rw [ht] at h ⊢
    rw [hs]
    simp [readSlice, Stage.readAll, Stage.finish, Stage.close?, Stage.refuse, add, join,
      Slice.alternatives, Slice.failure?, Slice.error?, parse_of_spells_nil h, Bind.bind,
      Except.bind, SyntaxError.relocate, SyntaxError.endedBy]
  case neg =>
    have hp := parse_eq_readSlice h ht hb
    have he : ∀ t ∈ ts.map (PlacedToken.relocate (· + s.offset)), t.1 ≠ .endOfInput :=
      List.forall_mem_map.mpr fun t hm => (h.spellable t hm).ne_endOfInput
    rw [readSlice_endedBy he, readSlice_relocate]
    cases hr : readSlice ts .endOfInput stop
    case ok a =>
      rw [hr] at hp
      simp [Except.mapError, add, join, Slice.alternatives, Slice.failure?, Slice.error?, hp,
        Except.map]
    case error e =>
      rw [hr] at hp
      have hn : (e.relocate (· + s.offset)).endedBy s.ending ≠ .empty :=
        SyntaxError.endedBy_relocate_ne_empty <| ne_empty_of_readSlice hr
      simp [Except.mapError, add, join, Slice.alternatives, Slice.failure?, Slice.error?, hp,
        Except.map, hn]

end Reading

-- Alone, the text spells the tokens, and there is no bar among them.
def IsSlice (text : String) (us : List Token) : Prop :=
  tokenize text = .ok (us ++ [.endOfInput]) ∧ .pipe ∉ us

theorem IsSlice.exists_spells {text : String} {us : List Token} (h : IsSlice text us) :
    ∃ ts stop, Spells 0 text.toList ts stop ∧ us = ts.map Prod.fst ∧ ∀ t ∈ ts, t.1 ≠ .pipe := by
  have ⟨ht, hb⟩ := h
  have ⟨ts, stop, hs, hu⟩ := tokenize_eq_ok_append_iff.mp ht
  exact ⟨ts, stop, hs, hu, fun t hm hp => hb <| hu ▸ hp ▸ List.mem_map_of_mem hm⟩

section

variable {parts : List String} {tss : List (List Token)}

theorem exists_isSlice (h : List.Forall₂ IsSlice parts tss) :
    ∀ part ∈ parts, ∃ us, IsSlice part us :=
  List.forall₂_and_left _ _ |>.mp (h.imp fun _ us h => ⟨⟨us, h⟩, h⟩) |>.left

-- Slice by slice, a reading of the whole text joins what the slices give alone.
theorem exists_spells_intercalate (offset : Nat) (hn : parts ≠ [])
    (h : List.Forall₂ IsSlice parts tss) :
    ∃ ts stop, Spells offset ("|".intercalate parts).toList ts stop ∧
      ts.map Prod.fst = [.pipe].intercalate tss ∧
      ∀ r : Reading, r.stage = .ok .start →
        (r.readAll ts).close .endOfInput stop = (Slice.ofParts offset parts).foldl .join r := by
  induction h generalizing offset
  case nil => contradiction
  case cons text us parts tss h hs hi =>
    have ⟨ts, stop, ht, hu, hb⟩ := h.exists_spells
    have hm := ht.move (d := offset)
    have hf : (ts.map <| PlacedToken.relocate (· + offset)).map Prod.fst = us := by
      rw [hu, List.map_map]
      rfl
    have hb' : ∀ t ∈ ts.map (PlacedToken.relocate (· + offset)), t.1 ≠ .pipe :=
      List.forall_mem_map.mpr hb
    rw [Nat.zero_add] at hm
    cases hs
    case nil =>
      refine ⟨_, _, by simpa using hm, by simpa using hf, fun r hr => ?_⟩
      rw [Reading.close_readAll hr hb']
      exact Reading.add_readSlice (s := ⟨text, offset, .endOfInput⟩) ht hb
    case cons next _ parts _ =>
      have hl : stop + offset + 1 = offset + text.length + 1 := by
        rw [ht.stop_eq, String.length_toList]
        omega
      have ⟨us, stop', hu, hf', hr'⟩ := hi (offset + text.length + 1) (by simp)
      rw [←hl] at hu
      refine ⟨_, _, by simpa using hm.append_pipe hu, by simp [hf, hf'], fun r hr => ?_⟩
      have hj := Reading.add_readSlice (s := ⟨text, offset, .pipe⟩) (r := r) ht hb
      rw [Reading.readAll_append]
      change (((r.readAll _).close .pipe _).readAll us).close _ _ = _
      rw [Reading.close_readAll hr hb', hj]
      exact hr' _ rfl

theorem exists_parser_of_parts (hn : [.pipe].intercalate tss ≠ [])
    (h : List.Forall₂ IsSlice parts tss) :
    ∃ p, Parser.ofLexer (.ofText <| "|".intercalate parts) = .ok p ∧
      (p.parse.1, p.parse.2.recovered) =
        ((Slice.ofParts 0 parts).foldl Reading.join Reading.start).outcome := by
  have hn' : parts ≠ [] := by
    intro hp
    cases hp
    cases h
    contradiction
  have ⟨ts, stop, hs, hf, hr⟩ := exists_spells_intercalate 0 hn' h
  have ht : ts ≠ [] := by
    intro he
    rw [←hf, he] at hn
    contradiction
  have ⟨p, hp, ho⟩ := hs.exists_parser ht
  exact ⟨p, hp, ho.trans <| hr .start rfl ▸ rfl⟩

theorem exists_parts_of_tokenize {text : String} {ts : List Token}
    (h : tokenize text = .ok (ts ++ [.endOfInput])) :
    ∃ parts, text = "|".intercalate parts ∧ List.Forall₂ IsSlice parts (ts.splitOn .pipe) := by
  have ⟨us, stop, hs, hu⟩ := tokenize_eq_ok_append_iff.mp h
  have ⟨parts, ht, hp⟩ := hs.exists_parts
  refine ⟨parts.map String.ofList, ?text, ?slices⟩
  case text =>
    rw [←String.toList_inj, String.toList_intercalate, ht]
    simp [Function.comp_def]
  case slices =>
    rw [List.forall₂_map_left_iff, hu]
    refine hp.imp fun part us ⟨hb, vs, stop, hv, he⟩ => ⟨?_, hb⟩
    rw [←String.toList_ofList (l := part)] at hv
    exact tokenize_eq_ok_append_iff.mpr ⟨vs, stop, hv, he⟩

end

namespace Slice

variable {s : Slice} {ss : List Slice} {offset : Nat}

theorem map_text_ofParts (offset : Nat) (parts : List String) :
    (ofParts offset parts).map text = parts := by
  induction parts generalizing offset
  case nil => rfl
  case cons text parts hi => cases parts <;> simp [ofParts, hi]

theorem forall_mem_ofParts {parts : List String} {p : String → Prop} :
    (∀ s ∈ ofParts offset parts, p s.text) ↔ ∀ part ∈ parts, p part := by
  rw [←List.forall_mem_map (f := text), map_text_ofParts]

theorem length_ofParts {parts : List String} : (ofParts offset parts).length = parts.length := by
  rw [←List.length_map Slice.text, map_text_ofParts]

theorem alternatives_of_parse_eq_ok {a : Alternative}
    (h : parse s.text = .ok { alternatives := [a] }) :
    s.alternatives = [a] ∧ s.failure? = none := by
  simp [alternatives, failure?, error?, h]

theorem failure?_of_parse_eq_error {e : SyntaxError} (h : parse s.text = .error e) :
    s.alternatives = [] ∧ ∃ e', s.failure? = some e' := by
  simp [alternatives, failure?, error?, h]

-- Parsed alone, a slice gives a single alternative or an error.
theorem parse_of_isSlice (h : ∃ us, IsSlice s.text us) :
    (∃ a, parse s.text = .ok { alternatives := [a] }) ∨ (∃ e, parse s.text = .error e) := by
  have ⟨us, hu⟩ := h
  have ⟨ts, stop, hs, _, hb⟩ := hu.exists_spells
  by_cases ht : ts = []
  case pos => exact .inr ⟨_, parse_of_spells_nil (ht ▸ hs)⟩
  case neg =>
    rw [parse_eq_readSlice hs ht hb]
    cases readSlice ts .endOfInput stop <;> simp [Except.map]

theorem flatMap_alternatives_eq_nil_iff (h : ∀ s ∈ ss, ∃ us, IsSlice s.text us) :
    ss.flatMap alternatives = [] ↔ ∀ s ∈ ss, ∀ selector, parse s.text ≠ .ok selector := by
  rw [List.flatMap_eq_nil_iff]
  apply forall₂_congr
  intro s hm
  match parse_of_isSlice (h s hm) with
  | .inl ⟨_, hp⟩ => simp [alternatives_of_parse_eq_ok hp, hp]
  | .inr ⟨_, hp⟩ => simp [failure?_of_parse_eq_error hp, hp]

-- If no slice succeeds, the first error is that of the first slice.
theorem exists_first_failure (hn : ss ≠ [])
    (h : ∀ s ∈ ss, ∀ selector, parse s.text ≠ .ok selector) :
    ∃ s e es, ss.head? = some s ∧ s.failure? = some e ∧ ss.filterMap failure? = e :: es := by
  have ⟨s, ss, hs⟩ := List.exists_cons_of_ne_nil hn
  match hp : parse s.text with
  | .ok selector => exact absurd hp <| h s (hs ▸ .head _) selector
  | .error _     =>
    have ⟨_, e, hf⟩ := failure?_of_parse_eq_error hp
    exact ⟨s, e, _, hs ▸ rfl, hf, hs ▸ List.filterMap_cons_some hf⟩

theorem length_alternatives_add_failures (h : ∀ s ∈ ss, ∃ us, IsSlice s.text us) :
    (ss.flatMap alternatives).length + (ss.filterMap failure?).length = ss.length := by
  induction ss
  case nil => rfl
  case cons s ss hi =>
    have ⟨hs, h⟩ := List.forall_mem_cons.mp h
    have hi := hi h
    match parse_of_isSlice hs with
    | .inl ⟨_, hp⟩ =>
      have ⟨ha, hf⟩ := alternatives_of_parse_eq_ok hp
      simp only [List.flatMap_cons, ha, List.filterMap_cons_none hf, List.length_append,
        List.length_cons, List.length_nil]
      omega
    | .inr ⟨_, hp⟩ =>
      have ⟨ha, _, hf⟩ := failure?_of_parse_eq_error hp
      simp only [List.flatMap_cons, ha, List.filterMap_cons_some hf, List.nil_append,
        List.length_cons]
      omega

end Slice

theorem length_splitOn {ts : List Token} {t : Token} :
    (ts.splitOn t).length = ts.count t + 1 := by
  induction ts
  case nil => rfl
  case cons u ts hi =>
    rw [List.splitOn_cons_eq_if_modifyHead, List.count_cons]
    split <;> simp [hi]

theorem Reading.outcome_of_alternatives {r : Reading} (h : r.alternatives ≠ []) :
    r.outcome = (.ok { alternatives := r.alternatives }, r.failures) := by
  cases ha : r.alternatives <;> simp_all [outcome]

theorem Reading.outcome_of_failures {r : Reading} {e} {es} (ha : r.alternatives = [])
    (hf : r.failures = e :: es) : r.outcome = (.error e, []) := by
  simp [outcome, ha, hf]

theorem Reading.of_outcome_eq_ok {r : Reading} {s : Selector} (h : r.outcome.1 = .ok s) :
    s.alternatives ≠ [] ∧ s.alternatives = r.alternatives := by
  unfold outcome at h
  split at h <;> cases h
  case h_3 hne hne' =>
    refine ⟨?_, rfl⟩
    intro ha
    cases hf : r.failures
    case nil  => exact hne ha hf
    case cons => exact hne' _ _ ha hf

theorem Reading.alternatives_of_outcome_eq_error {r : Reading} {e : SyntaxError}
    (h : r.outcome.1 = .error e) : r.alternatives = [] := by
  by_contra hn
  simp [outcome_of_alternatives hn] at h

-- The tokens of a text, and its parts between the bars.
structure Sliced (text : String) (ts : List Token) (parts : List String) : Prop where
  tokenize_eq : tokenize text = .ok (ts ++ [.endOfInput])
  text_eq     : text = "|".intercalate parts
  slices      : List.Forall₂ IsSlice parts (ts.splitOn .pipe)

namespace Sliced

variable {text : String} {ts : List Token} {parts : List String}

theorem forall_isSlice (h : Sliced text ts parts) :
    ∀ s ∈ Slice.ofParts 0 parts, ∃ us, IsSlice s.text us :=
  Slice.forall_mem_ofParts.mpr <| exists_isSlice h.slices

theorem length_alternatives_add_failures (h : Sliced text ts parts) :
    ((Slice.ofParts 0 parts).flatMap Slice.alternatives).length +
      ((Slice.ofParts 0 parts).filterMap Slice.failure?).length = ts.count .pipe + 1 := by
  rw [Slice.length_alternatives_add_failures h.forall_isSlice, Slice.length_ofParts,
    h.slices.length_eq, length_splitOn]

end Sliced

-- A selector is made of the alternatives of its slices, and the parser keeps an error for each
-- slice that gives none.
theorem exists_sliced_of_parse_eq_ok {text : String} {s : Selector} (h : parse text = .ok s) :
    ∃ ts parts p, Sliced text ts parts ∧ Parser.ofLexer (.ofText text) = .ok p ∧
      p.parse.1 = .ok s ∧ s.alternatives ≠ [] ∧
      s.alternatives = (Slice.ofParts 0 parts).flatMap Slice.alternatives ∧
      p.parse.2.recovered = (Slice.ofParts 0 parts).filterMap Slice.failure? := by
  have ⟨ts, hn, ht⟩ := tokenize_of_parse_eq_ok h
  have ⟨parts, htext, hp⟩ := exists_parts_of_tokenize ht
  have ⟨p, hl, ho⟩ := exists_parser_of_parts (by rwa [List.intercalate_splitOn]) hp
  rw [←htext] at hl
  have hs : p.parse.1 = .ok s := by simpa [parse, hl] using h
  rw [Reading.foldl_join rfl] at ho
  obtain ⟨hne, ha⟩ := Reading.of_outcome_eq_ok <| (congrArg Prod.fst ho).symm.trans hs
  rw [Reading.outcome_of_alternatives (ha ▸ hne)] at ho
  exact ⟨ts, parts, p, ⟨ht, htext, hp⟩, hl, hs, hne, ha, congrArg Prod.snd ho⟩

-- The slices of a text are parsed as if each stood alone. Slices that fail are dropped, and the
-- errors of all of them are kept, unless none succeeds: then the first error is the result.
theorem parse_eq_slices {text : String} {ts : List Token}
    (h : tokenize text = .ok (ts ++ [.endOfInput])) (ht : ts ≠ []) :
    ∃ parts p, text = "|".intercalate parts ∧
      List.Forall₂ (fun part us => tokenize part = .ok (us ++ [.endOfInput])) parts
        (ts.splitOn .pipe) ∧
      Parser.ofLexer (.ofText text) = .ok p ∧
      let alternatives := (Slice.ofParts 0 parts).flatMap Slice.alternatives
      let failures     := (Slice.ofParts 0 parts).filterMap Slice.failure?
      alternatives.length + failures.length = ts.count .pipe + 1 ∧
      ((∃ part ∈ parts, ∃ s, parse part = .ok s) →
        p.parse.1 = .ok { alternatives } ∧ p.parse.2.recovered = failures) ∧
      ((∀ part ∈ parts, ∀ s, parse part ≠ .ok s) →
        ∃ s e, (Slice.ofParts 0 parts).head? = some s ∧ s.failure? = some e ∧
          p.parse.1 = .error e ∧ p.parse.2.recovered = []) := by
  have ⟨parts, htext, hp⟩ := exists_parts_of_tokenize h
  have hl : parts.length = ts.count .pipe + 1 := hp.length_eq.trans length_splitOn
  have hs : ∀ s ∈ Slice.ofParts 0 parts, ∃ us, IsSlice s.text us :=
    Slice.forall_mem_ofParts.mpr <| exists_isSlice hp
  have ⟨p, hp', ho⟩ := exists_parser_of_parts (by rwa [List.intercalate_splitOn]) hp
  rw [Reading.foldl_join rfl] at ho
  refine ⟨parts, p, htext, hp.imp fun _ _ => And.left, htext ▸ hp', ?length, ?some, ?none⟩
  case length =>
    rw [Slice.length_alternatives_add_failures hs, Slice.length_ofParts, hl]
  case some =>
    intro ⟨part, hm, selector, hok⟩
    have ha : (Slice.ofParts 0 parts).flatMap Slice.alternatives ≠ [] := by
      intro ha
      have hnone : ∀ part ∈ parts, ∀ selector, parse part ≠ .ok selector :=
        Slice.forall_mem_ofParts.mp <| Slice.flatMap_alternatives_eq_nil_iff hs |>.mp ha
      exact hnone part hm selector hok
    exact Prod.mk.inj <| ho.trans <| Reading.outcome_of_alternatives ha
  case none =>
    intro hnone
    have hnone : ∀ s ∈ Slice.ofParts 0 parts, ∀ selector, parse s.text ≠ .ok selector :=
      Slice.forall_mem_ofParts.mpr hnone
    have ha := Slice.flatMap_alternatives_eq_nil_iff hs |>.mpr hnone
    have hne : Slice.ofParts 0 parts ≠ [] := by
      rw [←List.length_pos_iff, Slice.length_ofParts, hl]
      exact Nat.succ_pos _
    have ⟨s, e, _, hhead, hf, hfs⟩ := Slice.exists_first_failure hne hnone
    exact ⟨s, e, hhead, hf, Prod.mk.inj <| ho.trans <| Reading.outcome_of_failures ha hfs⟩

theorem parse_slices_around_failure :
    ∃ p alternatives, Parser.ofLexer (.ofText "/a|b|/c") = .ok p ∧
      p.parse.1 = .ok { alternatives } ∧ alternatives.length + p.parse.2.recovered.length = 3 := by
  let ts : List Token :=
    [.slash, .identifier "a", .pipe, .identifier "b", .pipe, .slash, .identifier "c"]
  have h : tokenize "/a|b|/c" = .ok (ts ++ [.endOfInput]) := by decide +kernel
  have ⟨parts, p, _, hp, hl, hc, hs, _⟩ := parse_eq_slices h (by decide)
  have hn : ts.splitOn .pipe =
      [[.slash, .identifier "a"], [.identifier "b"], [.slash, .identifier "c"]] := by
    decide
  rw [hn] at hp
  cases hp
  case cons ha _ =>
  have hd : Alternative.DerivedFrom ⟨.root, ⟨.named "a", none⟩, []⟩ [.slash, .identifier "a"] :=
    .root (.bare <| .named _) .nil
  have ha := parse_eq_ok_iff ha (by decide) (by decide) |>.mpr ⟨_, hd, rfl⟩
  have ⟨ho, hr⟩ := hs ⟨_, List.mem_cons_self, _, ha⟩
  exact ⟨p, _, hl, ho, hr ▸ hc⟩

-- Alone, nothing at all is an empty selector. Behind a bar it is an alternative without a start.
theorem recovered_ne_errors_of_blank_slice :
    let slices := Slice.ofParts 0 ["/a", ""]
    "/a|" = "|".intercalate ["/a", ""] ∧
      tokenize "/a|" = .ok [.slash, .identifier "a", .pipe, .endOfInput] ∧
      (parse "/a").isOk ∧ slices.filterMap Slice.error? = [.empty] ∧
      ∃ p, Parser.ofLexer (.ofText "/a|") = .ok p ∧ p.parse.2.recovered = [.missingRoot 3] ∧
        p.parse.2.recovered ≠ slices.filterMap Slice.error? := by
  refine ⟨by decide +kernel, by decide +kernel, by decide +kernel, by decide +kernel, ?_⟩
  exact ⟨⟨.slash, 0, ⟨['a', '|'], 1, 0⟩, []⟩, rfl, by decide +kernel, by decide +kernel⟩

end TreeQuery
