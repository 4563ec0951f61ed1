import Mathlib.Data.List.TakeWhile
import TreeQuery.Token.Lexer

namespace TreeQuery

namespace Quotation

variable {c : Char} {cs text : List Char} {n : Nat} {q : Quotation}

theorem push_eq_closed_iff {width : Nat} :
    (push c width q = closed text n) ↔
      ∃ text' n', q = closed text' n' ∧ text = c :: text' ∧ n = width + n' := by
  cases q <;> simp [push, eq_comm, and_assoc]

theorem read_escape_append : read (escape c ++ cs) = push c (escape c).length (read cs) := by
  by_cases h : c = '\'' ∨ c = '\\'
  case pos =>
    rw [escape, if_pos h]
    cases h <;> (subst c; rfl)
  case neg =>
    rw [escape, if_neg h]
    have ⟨hq, hb⟩ := not_or.mp h
    rw [List.cons_append, List.nil_append, read]
    · rfl
    all_goals simp_all

theorem read_quoted {rest : List Char} :
    read (text.flatMap escape ++ '\'' :: rest) =
      closed text ((text.flatMap escape).length + 1) := by
  induction text
  case nil => rfl
  case cons c text hi =>
    rw [List.flatMap_cons, List.append_assoc, read_escape_append, hi]
    simp [push]; omega

theorem eq_quoted_of_read_eq_closed (h : read cs = closed text n) :
    ∃ rest, cs = text.flatMap escape ++ '\'' :: rest := by
  induction cs using read.induct generalizing text n
  case case1 => simp [read] at h
  case case2 rest =>
    simp only [read, closed.injEq] at h
    exact ⟨rest, by simp [←h.left]⟩
  case case3 => simp [read] at h
  case case4 hi | case5 hi =>
    rw [read] at h
    have ⟨_, _, hr, ht, _⟩ := push_eq_closed_iff.mp h
    have ⟨rest, he⟩ := hi hr
    exact ⟨rest, by simp [ht, he, escape]⟩
  case case6 hq hb =>
    rw [read] at h
    · simp at h
    all_goals simp_all
  case case7 c cs hq hb₁ hb₂ hb₃ hb₄ hi =>
    have hb : c ≠ '\\' := fun hc => by
      cases cs
      case nil  => exact hb₁ hc rfl
      case cons => exact hb₄ _ _ hc rfl
    rw [read] at h
    · have ⟨_, _, hr, ht, _⟩ := push_eq_closed_iff.mp h
      have ⟨rest, he⟩ := hi hr
      exact ⟨rest, by simp [ht, he, escape, show c ≠ '\'' from hq, hb]⟩
    all_goals assumption

end Quotation

namespace Token

-- The tokens that stand for a part of a text.
def Spellable : Token → Prop
  | identifier name => isWord name.toList
  | endOfInput      => False
  | _               => True

theorem Spellable.ne_endOfInput {t : Token} (h : t.Spellable) : t ≠ .endOfInput :=
  fun he => (he ▸ h : endOfInput.Spellable)

theorem Spellable.spelling_ne_nil {t : Token} (h : t.Spellable) : t.spelling ≠ [] := by
  cases t
  case endOfInput      => exact h.elim
  case identifier name =>
    intro hn
    simp [Spellable, show name.toList = [] from hn, isWord] at h
  all_goals simp [spelling, quote]

theorem spellable_ofText {text : String} : (ofText text).Spellable := by
  unfold ofText
  split
  case isTrue h => exact h
  case isFalse  => trivial

-- The characters that would belong to the token if they stood right behind it.
def absorbs : Token → Char → Bool
  | identifier _, c => isWordChar c
  | star,         c => c = '*'
  | dot,          c => c = '.'
  | _,            _ => false

def EndsBefore (t : Token) (cs : List Char) : Prop :=
  ∀ c ∈ cs.head?, t.absorbs c = false

end Token

theorem isWord_cons_iff {c : Char} {w : List Char} :
    isWord (c :: w) ↔ (isWordStart c ∧ ∀ d ∈ w, isWordChar d) := by
  simp [isWord]

theorem takeWhile_append_eq_left {p : Char → Bool} {w cs : List Char}
    (hw : ∀ c ∈ w, p c) (hc : ∀ c ∈ cs.head?, p c = false) : (w ++ cs).takeWhile p = w := by
  rw [List.takeWhile_append_of_pos hw]
  cases cs
  case nil  => simp
  case cons => simp [hc _ rfl]

-- The characters of the other tokens.
def punctuation : List Char :=
  ['/', '|', '{', '}', ',', '=', '*', '.', '~', '\'']

theorem isWordStart_eq_false_of_punctuation {c : Char} (h : c ∈ punctuation) :
    isWordStart c = false := by
  have hp : punctuation.all fun c =>
      c.toNat < 0x80 && !(c.isAlphanum || c == '_' || c == '-') := by decide
  have ⟨hl, hc⟩ := Bool.and_eq_true_iff.mp <| List.all_eq_true.mp hp c h
  rw [isWordStart, isAlphanumeric_eq_isAlphanum (of_decide_eq_true hl)]
  exact Bool.not_eq_true' _ |>.mp hc

-- No token goes on over a delimiter.
theorem Token.absorbs_delimiter {t : Token} {c : Char}
    (hc : c ∈ ['/', '|', '{', '}', ',', '=']) : t.absorbs c = false := by
  have hp : c ∈ punctuation ∧ c ≠ '*' ∧ c ≠ '.' := by
    simp only [List.mem_cons, List.not_mem_nil, or_false] at hc
    obtain rfl | rfl | rfl | rfl | rfl | rfl := hc <;> decide
  have ⟨hp, hs, hd⟩ := hp
  cases t
  case identifier =>
    have hw := isWordStart_eq_false_of_punctuation hp
    simpa [absorbs, isWordChar, hw] using hd
  case star       => exact decide_eq_false hs
  case dot        => exact decide_eq_false hd
  all_goals rfl

namespace Scan

variable {t : Token} {cs : List Char} {c : Char} {n : Nat}

theorem read_of_isWordStart (h : isWordStart c) :
    Scan.read (c :: cs) = ofWord (c :: cs.takeWhile isWordChar) := by
  have hc : ∀ s ∈ punctuation, c ≠ s := by
    intro s hm he
    rw [he, isWordStart_eq_false_of_punctuation hm] at h
    contradiction
  simp only [punctuation, List.mem_cons, List.not_mem_nil, or_false, forall_eq_or_imp,
    forall_eq] at hc
  rw [Scan.read]
  · exact if_pos h
  all_goals simp [hc]

theorem read_spelling_append (hs : t.Spellable) (he : t.EndsBefore cs) :
    Scan.read (t.spelling ++ cs) = .token t t.spelling.length := by
  cases t
  case endOfInput => exact hs.elim
  case quoted text =>
    have hq : quote text.toList ++ cs = '\'' :: (text.toList.flatMap escape ++ '\'' :: cs) := by
      simp [quote]
    rw [Token.spelling, hq, Scan.read, Quotation.read_quoted]
    simp [ofQuotation, quote]; omega
  case identifier name =>
    simp only [Token.Spellable] at hs
    cases hn : name.toList
    case nil      => simp [hn, isWord] at hs
    case cons c w =>
      obtain ⟨hc, hw⟩ := isWord_cons_iff.mp (hn ▸ hs)
      rw [Token.spelling, hn, List.cons_append, read_of_isWordStart hc,
        takeWhile_append_eq_left hw he, ofWord, ←hn, String.ofList_toList]
  case star =>
    cases cs
    case nil       => rfl
    case cons c cs =>
      have hc : c ≠ '*' := by simpa [Token.absorbs] using he c rfl
      simp [Token.spelling, Scan.read, hc]
  case dot =>
    cases cs
    case nil       => rfl
    case cons c cs =>
      have hc : c ≠ '.' := by simpa [Token.absorbs] using he c rfl
      simp [Token.spelling, Scan.read, hc]
  all_goals rfl

theorem ne_of_mem_head? (h : ∀ tail, cs = c :: tail → False) :
    ∀ d ∈ cs.head?, decide (d = c) = false := by
  intro d hd
  cases cs <;> simp_all

theorem eq_spelling_of_ofWord_eq_token (hc : isWordStart c)
    (h : ofWord (c :: cs.takeWhile isWordChar) = .token t n) :
    ∃ rest, c :: cs = t.spelling ++ rest ∧ t.Spellable ∧ t.EndsBefore rest := by
  have ⟨ht, _⟩ := Scan.token.inj h
  have hs : t.spelling = c :: cs.takeWhile isWordChar := by
    rw [←ht, Token.spelling, String.toList_ofList]
  refine ⟨cs.dropWhile isWordChar, by simp [hs], ?spellable, ?ends⟩
  case spellable =>
    rw [←ht, Token.Spellable, String.toList_ofList]
    exact isWord_cons_iff.mpr ⟨hc, fun _ => List.mem_takeWhile_imp⟩
  case ends =>
    intro d hd
    have := List.head?_dropWhile_not isWordChar cs
    simpa [Option.mem_def.mp hd, ←ht, Token.absorbs] using this

theorem eq_spelling_of_read_eq_token (h : Scan.read cs = .token t n) (ht : t ≠ .endOfInput) :
    ∃ rest, cs = t.spelling ++ rest ∧ t.Spellable ∧ t.EndsBefore rest := by
  cases cs
  case nil => simp_all [Scan.read]
  case cons c cs =>
  by_cases hc : isWordStart c
  case pos => exact eq_spelling_of_ofWord_eq_token hc <| read_of_isWordStart hc ▸ h
  case neg =>
    have ha {t' rest} (hp : ∀ c, Token.absorbs t' c = false) : t'.EndsBefore rest := fun c _ => hp c
    unfold Scan.read at h
    split at h <;> try cases h
    case h_1 => simp at ht
    case h_9.refl hn he  => exact ⟨_, he, trivial, ne_of_mem_head? hn⟩
    case h_11.refl hn he => exact ⟨_, he, trivial, ne_of_mem_head? hn⟩
    case h_14 cs he =>
      cases hq : Quotation.read cs <;> simp [hq, ofQuotation] at h
      case closed text _ =>
        obtain ⟨rest, hr⟩ := Quotation.eq_quoted_of_read_eq_closed hq
        cases h.left
        exact ⟨rest, by simp_all [Token.spelling, quote], trivial, ha fun _ => rfl⟩
    case h_15 he =>
      cases he
      simp [hc] at h
    all_goals exact ⟨_, ‹_ = _›, trivial, ha fun _ => rfl⟩

theorem eq_nil_of_read_eq_endOfInput (h : Scan.read cs = .token .endOfInput n) : cs = [] := by
  unfold Scan.read at h
  split at h <;> try simp at h
  case h_1      => rfl
  case h_14 cs  => cases hq : Quotation.read cs <;> simp [hq, ofQuotation] at h
  case h_15     => split at h <;> simp [ofWord] at h

end Scan
end TreeQuery
