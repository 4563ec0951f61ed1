import TreeQuery.Proofs.Token.Language
import TreeQuery.Selector.Canonical

namespace TreeQuery

variable {text : String} {t : Token}

-- Blanks are the only thing that can stand around the single token of a text.
theorem tokenize_eq_ok_singleton_iff :
    (tokenize text = .ok [t, .endOfInput]) ↔
      t.Spellable ∧ ∃ lead trail, (∀ c ∈ lead, isBlank c) ∧ (∀ c ∈ trail, isBlank c) ∧
        text.toList = lead ++ (t.spelling ++ trail) := by
  rw [←List.singleton_append, tokenize_eq_ok_append_iff]
  generalize text.toList = cs
  constructor
  case mp =>
    intro ⟨ts, _, h, ht⟩
    cases h
    case nil => simp at ht
    case cons lead rest _ us hl hs _ h =>
      obtain ⟨rfl, hu⟩ := List.cons.inj ht
      cases h
      case nil hr => exact ⟨hs, lead, rest, hl, hr, rfl⟩
      case cons   => simp at hu
  case mpr =>
    intro ⟨hs, lead, trail, hl, hr, hc⟩
    subst hc
    have he : t.EndsBefore trail := fun c hc =>
      Token.absorbs_eq_false_of_isBlank <| hr c <| List.mem_of_mem_head? hc
    exact ⟨[(t, 0 + lead.length)], _, .cons hl hs he <| .nil hr, rfl⟩

theorem tokenize_render_singleton (h : t.Spellable) :
    tokenize (render [t]) = .ok [t, .endOfInput] :=
  tokenize_eq_ok_singleton_iff.mpr ⟨h, [], [], by simp, by simp, by simp [render]⟩

theorem render_identifier : render [.identifier text] = text := by
  simp [render, Token.spelling]

theorem render_quoted : render [.quoted text] = String.ofList (quote text.toList) := by
  simp [render, Token.spelling]

-- A text with blanks around a word is read as that word, so it is not read as itself.
theorem tokenize_eq_ok_identifier_iff :
    (tokenize text = .ok [.identifier text, .endOfInput]) ↔ isWord text.toList := by
  constructor <;> intro h
  case mp  => exact tokenize_eq_ok_singleton_iff.mp h |>.left
  case mpr =>
    have hr := tokenize_render_singleton (t := .identifier text) h
    rwa [render_identifier] at hr

theorem length_le_length_flatMap_escape (cs : List Char) :
    cs.length ≤ (cs.flatMap escape).length := by
  induction cs
  case nil => simp
  case cons c cs hi =>
    have hc : 1 ≤ (escape c).length := by
      unfold escape
      split <;> simp
    simp only [List.flatMap_cons, List.length_append, List.length_cons]
    omega

theorem ofList_quote_ne : String.ofList (quote text.toList) ≠ text := by
  intro h
  have hl : (quote text.toList).length = text.toList.length := by
    simpa [String.length_toList] using congrArg String.length h
  have he := length_le_length_flatMap_escape text.toList
  simp only [quote, List.length_append, List.length_cons, List.length_nil] at hl
  omega

-- A free text is written bare exactly if it is itself read as an identifier, and quoted otherwise.
-- Both ways it is read back as a single token that holds the text.
theorem quoted_iff_not_read_as_identifier (text : String) :
    let written := render [.ofText text]
    (written = text ∧ tokenize written = .ok [.identifier text, .endOfInput] ∨
      written = String.ofList (quote text.toList) ∧
        tokenize written = .ok [.quoted text, .endOfInput]) ∧
    (written = text ↔ tokenize text = .ok [.identifier text, .endOfInput]) ∧
    (written = String.ofList (quote text.toList) ↔
      tokenize text ≠ .ok [.identifier text, .endOfInput]) := by
  intro written
  have hw : tokenize written = .ok [.ofText text, .endOfInput] :=
    tokenize_render_singleton Token.spellable_ofText
  rw [ne_eq, tokenize_eq_ok_identifier_iff]
  by_cases h : isWord text.toList
  case pos =>
    have ht : Token.ofText text = .identifier text := if_pos h
    have hb : written = text := by simp only [written, ht, render_identifier]
    have hn : written ≠ String.ofList (quote text.toList) := hb ▸ ofList_quote_ne.symm
    exact ⟨.inl ⟨hb, ht ▸ hw⟩, iff_of_true hb h, iff_of_false hn <| not_not_intro h⟩
  case neg =>
    have ht : Token.ofText text = .quoted text := if_neg h
    have hq : written = String.ofList (quote text.toList) := by
      simp only [written, ht, render_quoted]
    have hn : written ≠ text := hq ▸ ofList_quote_ne
    exact ⟨.inr ⟨hq, ht ▸ hw⟩, iff_of_false hn h, iff_of_true hq h⟩

example :
    let f : Filter :=
      ⟨[⟨"offset", .exactly "-1"⟩, ⟨"ratio", .exactly ".5"⟩, ⟨"label", .exactly "it's here"⟩]⟩
    render f.tokens = "\x7boffset=-1,ratio='.5',label='it\\'s here'\x7d" := by
  decide +kernel

end TreeQuery
