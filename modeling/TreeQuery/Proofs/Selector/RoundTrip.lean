import TreeQuery.Proofs.Selector.Recovery
import TreeQuery.Query

namespace TreeQuery

theorem Token.EndsBefore.of_isDelimiter {t u : Token} {rest : List Char}
    (h : t.isDelimiter ∨ u.isDelimiter) (hu : u.Spellable) : t.EndsBefore (u.spelling ++ rest) := by
  intro c hc
  cases h
  case inl ht => cases t <;> first | contradiction | rfl
  case inr hu =>
    cases u <;> first | contradiction | cases hc
    all_goals exact absorbs_delimiter (by simp)

-- Tokens of which one of two neighbours is always a delimiter can be written without blanks.
theorem Spells.exists_of_isChain {ts : List Token} (offset : Nat) (hs : ∀ t ∈ ts, t.Spellable)
    (hc : ts.IsChain fun t u => t.isDelimiter ∨ u.isDelimiter) :
    ∃ us stop, Spells offset (ts.flatMap Token.spelling) us stop ∧ ts = us.map Prod.fst := by
  have hg : ∀ c ∈ ([] : List Char), isBlank c := by simp
  induction hc generalizing offset
  case nil => exact ⟨[], _, .nil hg, rfl⟩
  case singleton t =>
    exact ⟨[(t, offset)], _, .cons hg (hs t <| .head _) nofun <| .nil hg, rfl⟩
  case cons_cons t u ts hd _ hi =>
    have ⟨ht, hs⟩ := List.forall_mem_cons.mp hs
    have ⟨us, stop, hu, he⟩ := hi (offset + t.spelling.length) hs
    have hb : t.EndsBefore ((u :: ts).flatMap Token.spelling) :=
      .of_isDelimiter hd (hs u <| .head _)
    exact ⟨(t, offset) :: us, stop, .cons hg ht hb hu, by rw [he]; rfl⟩

theorem tokenize_render {ts : List Token} (hs : ∀ t ∈ ts, t.Spellable)
    (hc : ts.IsChain fun t u => t.isDelimiter ∨ u.isDelimiter) :
    tokenize (render ts) = .ok (ts ++ [.endOfInput]) := by
  have ⟨us, stop, hu, he⟩ := Spells.exists_of_isChain 0 hs hc
  rw [←String.toList_ofList (l := ts.flatMap Token.spelling)] at hu
  exact tokenize_eq_ok_append_iff.mpr ⟨us, stop, hu, he⟩

theorem render_intercalate {tss : List (List Token)} :
    render ([.pipe].intercalate tss) = "|".intercalate (tss.map render) := by
  rw [←String.toList_inj, String.toList_intercalate, render, String.toList_ofList]
  induction tss
  case nil => rfl
  case cons ts tss hi => cases tss <;> simp_all [render, Token.spelling]

theorem Condition.spellable {c : Condition} : ∀ t ∈ c.tokens, t.Spellable := by
  have hv : c.value.token.Spellable := by
    cases c.value
    case any     => trivial
    case exactly => exact Token.spellable_ofText
  simp only [tokens, List.forall_mem_cons]
  exact ⟨Token.spellable_ofText, trivial, hv, nofun⟩

theorem forall_mem_intercalate {p : Token → Prop} {t : Token} {tss : List (List Token)} (ht : p t)
    (h : ∀ ts ∈ tss, ∀ u ∈ ts, p u) : ∀ u ∈ [t].intercalate tss, p u := by
  induction tss
  case nil => simp
  case cons ts tss hi =>
    have ⟨hts, h⟩ := List.forall_mem_cons.mp h
    cases tss
    case nil  => simpa using hts
    case cons =>
      simp only [List.intercalate_cons_cons, List.forall_mem_append, List.forall_mem_singleton]
      exact ⟨⟨hts, ht⟩, hi h⟩

theorem Filter.spellable {f : Filter} : ∀ t ∈ f.tokens, t.Spellable := by
  have hc : ∀ t ∈ [Token.comma].intercalate (f.conditions.map Condition.tokens), t.Spellable :=
    forall_mem_intercalate trivial <| List.forall_mem_map.mpr fun _ _ => Condition.spellable
  simpa [tokens, or_imp, forall_and, Token.Spellable] using hc

theorem Segment.WellFormed.spellable {s : Segment} (h : s.WellFormed) :
    ∀ t ∈ s.tokens, t.Spellable := by
  match s with
  | ⟨s, f⟩ =>
    refine List.forall_mem_cons.mpr ⟨?step, ?filter⟩
    case step =>
      cases s
      case named => exact h.step
      all_goals trivial
    case filter =>
      cases f
      case none => simp
      case some => exact Filter.spellable

theorem Alternative.WellFormed.spellable {a : Alternative} (h : a.WellFormed) :
    ∀ t ∈ a.tokens, t.Spellable := by
  have ha : ∀ t ∈ a.anchor.tokens, t.Spellable := by
    cases a.anchor <;> simp [Anchor.tokens, Token.Spellable]
  have hp : ∀ t ∈ a.path.flatMap (.slash :: ·.tokens), t.Spellable := by
    intro t ht
    obtain ⟨s, hs, ht⟩ := List.mem_flatMap.mp ht
    exact List.forall_mem_cons.mpr ⟨trivial, (h.path s hs).spellable⟩ t ht
  intro t ht
  simp only [tokens, List.mem_append] at ht
  exact ht.elim (Or.rec (ha t) (h.first.spellable t)) (hp t)

theorem Alternative.WellFormed.tokenize_text {a : Alternative} (h : a.WellFormed) :
    tokenize a.text = .ok (a.tokens ++ [.endOfInput]) :=
  have ⟨_, hr, _⟩ := h.derivedFrom_tokens.run
  tokenize_render h.spellable (Stage.isChain_of_run hr)

theorem Alternative.WellFormed.parse_text {a : Alternative} (h : a.WellFormed) :
    parse a.text = .ok { alternatives := [a] } :=
  have hd := h.derivedFrom_tokens
  parse_eq_ok_iff h.tokenize_text hd.ne_nil hd.pipe_not_mem |>.mpr ⟨a, hd, rfl⟩

namespace Selector

variable {s : Selector} {text : String}

theorem text_eq_intercalate : s.text = "|".intercalate (s.alternatives.map Alternative.text) := by
  rw [Selector.text, tokens, render_intercalate, List.map_map]
  rfl

theorem forall₂_isSlice (h : ∀ a ∈ s.alternatives, a.WellFormed) :
    List.Forall₂ IsSlice (s.alternatives.map Alternative.text)
      (s.alternatives.map Alternative.tokens) := by
  rw [List.forall₂_map_left_iff, List.forall₂_map_right_iff, List.forall₂_same]
  exact fun a ha => ⟨(h a ha).tokenize_text, (h a ha).derivedFrom_tokens.pipe_not_mem⟩

theorem slices_eq (offset : Nat) {as : List Alternative} (h : ∀ a ∈ as, a.WellFormed) :
    List.Forall₂ (fun s a => parse s.text = .ok { alternatives := [a] })
      (Slice.ofParts offset (as.map Alternative.text)) as := by
  have hp : List.Forall₂ (fun part a => parse part = .ok { alternatives := [a] })
      (as.map Alternative.text) as := by
    rw [List.forall₂_map_left_iff, List.forall₂_same]
    exact fun a ha => (h a ha).parse_text
  rwa [←Slice.map_text_ofParts offset (as.map Alternative.text), List.forall₂_map_left_iff] at hp

theorem flatMap_alternatives_eq {ss : List Slice} {as : List Alternative}
    (h : List.Forall₂ (fun s a => parse s.text = .ok { alternatives := [a] }) ss as) :
    ss.flatMap Slice.alternatives = as ∧ ss.filterMap Slice.failure? = [] := by
  induction h
  case nil => simp
  case cons hp _ hi =>
    have ⟨ha, hf⟩ := Slice.alternatives_of_parse_eq_ok hp
    simp [ha, hf, hi]

theorem tokens_ne_nil (h : s.WellFormed) : s.tokens ≠ [] := by
  have ⟨a, as, hs⟩ := List.exists_cons_of_ne_nil h.nonempty
  have ha := h.alternatives a (hs ▸ .head _) |>.derivedFrom_tokens.ne_nil
  cases as <;> simp [tokens, hs, ha]

theorem WellFormed.exists_parser (h : s.WellFormed) :
    ∃ p, Parser.ofLexer (.ofText s.text) = .ok p ∧ p.parse.1 = .ok s ∧
      p.parse.2.recovered = [] := by
  have ⟨p, hp, ho⟩ := exists_parser_of_parts (tokens_ne_nil h) <| forall₂_isSlice h.alternatives
  have ⟨ha, hf⟩ := flatMap_alternatives_eq <| slices_eq 0 h.alternatives
  rw [Reading.foldl_join rfl, ha, hf, Reading.outcome_of_alternatives h.nonempty] at ho
  exact ⟨p, text_eq_intercalate ▸ hp, Prod.mk.inj ho⟩

theorem wellFormed_of_mem_alternatives {slice : Slice} {us : List Token} {a : Alternative}
    (h : IsSlice slice.text us) (ha : a ∈ slice.alternatives) : a.WellFormed := by
  cases hp : parse slice.text
  case error => simp [Slice.alternatives, hp] at ha
  case ok s  =>
    obtain ⟨ts, hn, ht⟩ := tokenize_of_parse_eq_ok hp
    have hu : us = ts := by simpa [h.left] using ht
    obtain ⟨a', hd, hs⟩ := parse_eq_ok_iff h.left (hu ▸ hn) h.right |>.mp hp
    have he : a = a' := by simpa [Slice.alternatives, hp, hs] using ha
    exact he ▸ hd.wellFormed (spellable_of_tokenize h.left)

theorem wellFormed_of_parse_eq_ok (h : parse text = .ok s) : s.WellFormed := by
  have ⟨_, _, _, hs, _, _, hne, ha, _⟩ := exists_sliced_of_parse_eq_ok h
  refine ⟨hne, fun a hm => ?_⟩
  obtain ⟨slice, hm, ha⟩ := List.mem_flatMap.mp (ha ▸ hm)
  obtain ⟨_, hu⟩ := hs.forall_isSlice slice hm
  exact wellFormed_of_mem_alternatives hu ha

theorem ofText_of_ofLexer {p : Parser} (hl : Parser.ofLexer (.ofText text) = .ok p)
    (hp : p.parse.1 = .ok s) :
    Selector.ofText text = .ok (s, p.parse.2.recovered.map (.skippedAlternative text)) := by
  rcases hr : p.parse with ⟨_, p'⟩
  rw [hr] at hp
  cases hp
  simp only [Selector.ofText, hl, hr]
  rfl

theorem ofText_of_parse_eq_ok (h : parse text = .ok s) :
    ∃ events, Selector.ofText text = .ok (s, events) :=
  have ⟨_, _, _, _, hl, hp, _⟩ := exists_sliced_of_parse_eq_ok h
  ⟨_, ofText_of_ofLexer hl hp⟩

theorem ofText_of_parse_eq_error {e : SyntaxError} (h : parse text = .error e) :
    Selector.ofText text = .error e := by
  cases hl : Parser.ofLexer (.ofText text)
  case error =>
    simp only [parse, Selector.ofText, hl] at h ⊢
    cases h
    rfl
  case ok p  =>
    rcases hr : p.parse with ⟨_ | _, _⟩ <;> simp only [parse, Selector.ofText, hl, hr] at h ⊢ <;>
      cases h
    rfl

theorem parse_empty : parse "" = .error .empty :=
  parse_of_spells_nil <| .nil <| by simp

theorem isEmpty_of_parse_eq_ok (h : parse text = .ok s) : text.isEmpty = false := by
  by_contra hn
  have ht : text = "" := by simpa using hn
  rw [ht, parse_empty] at h
  contradiction

end Selector

namespace Tree

variable {t : Tree} {text : String}

theorem query_of_parse_eq_ok {s : Selector} {events : List Event} {b : Answer}
    (ho : Selector.ofText text = .ok (s, events)) (hb : t.evaluate s = some b)
    (h : parse text = .ok s) : t.query text = some { b with log := events ++ b.log } := by
  simp only [query, Selector.isEmpty_of_parse_eq_ok h, ho, hb]
  rfl

theorem query_of_parse_eq_error {e : SyntaxError} (hn : text ≠ "") (h : parse text = .error e) :
    t.query text = some { found := [], log := [.invalidSelector text e] } := by
  simp [query, hn, Selector.ofText_of_parse_eq_error h]

-- What is found depends on the text of a selector only through what the text is parsed to.
theorem found_query {s : Selector} (h : parse text = .ok s) :
    (t.query text).map Answer.found = (t.evaluate s).map Answer.found := by
  have ⟨_, he⟩ := Selector.ofText_of_parse_eq_ok h
  simp only [query, Selector.isEmpty_of_parse_eq_ok h, he]
  cases t.evaluate s <;> rfl

end Tree

-- Rendering and parsing are inverse to each other on exactly the well-formed selectors.
theorem Selector.parse_text_iff_wellFormed :
    (∀ s : Selector,
      (∃ p, Parser.ofLexer (.ofText s.text) = .ok p ∧ p.parse.1 = .ok s ∧
        p.parse.2.recovered = []) ↔ s.WellFormed) ∧
    (∀ text s, parse text = .ok s →
      s.WellFormed ∧ parse s.text = .ok s ∧
      ∀ t : Tree, (t.query text).map Answer.found = (t.query s.text).map Answer.found) := by
  have hparse {s : Selector} (h : s.WellFormed) : parse s.text = .ok s := by
    have ⟨p, hp, hs, _⟩ := h.exists_parser
    simp only [parse, hp, hs]
  refine ⟨fun s => ⟨fun h => ?wellFormed, WellFormed.exists_parser⟩, fun text s h => ?accepted⟩
  case wellFormed =>
    have ⟨p, hp, hs, _⟩ := h
    exact wellFormed_of_parse_eq_ok <| show parse s.text = .ok s by simp only [parse, hp, hs]
  case accepted =>
    have hw := wellFormed_of_parse_eq_ok h
    have hs := hparse hw
    exact ⟨hw, hs, fun t => (Tree.found_query h).trans (Tree.found_query hs).symm⟩

theorem Selector.parse_text_of_recovered :
    let a : Alternative := ⟨.root, ⟨.named "a", some ⟨[⟨"b", .exactly "c d"⟩]⟩⟩, []⟩
    let s : Selector := { alternatives := [a] }
    parse "x | /a \x7b 'b' = 'c d' \x7d" = .ok s ∧ s.WellFormed ∧
      s.text = "/a\x7bb='c d'\x7d" ∧ parse "/a\x7bb='c d'\x7d" = .ok s := by
  intro a s
  have h : parse "x | /a \x7b 'b' = 'c d' \x7d" = .ok s := by decide +kernel
  have ⟨hw, hs, _⟩ := parse_text_iff_wellFormed.right _ _ h
  have ht : s.text = "/a\x7bb='c d'\x7d" := by decide +kernel
  exact ⟨h, hw, ht, ht ▸ hs⟩

end TreeQuery
