import Mathlib.Data.List.Forall2
import TreeQuery.Proofs.Token.Spelling

namespace TreeQuery

-- A token with the place where it starts.
abbrev PlacedToken := Token × Nat

def PlacedToken.relocate (f : Nat → Nat) : PlacedToken → PlacedToken
  | (t, place) => (t, f place)

-- From the place `offset` of a text up to its end at `stop`, the text spells the given tokens, each
-- at the place beside it, and has nothing but blanks between them. No token could be longer.
inductive Spells : Nat → List Char → List PlacedToken → Nat → Prop
  | nil {offset : Nat} {gap : List Char} :
    (∀ c ∈ gap, isBlank c) → Spells offset gap [] (offset + gap.length)
  | cons {offset stop : Nat} {gap rest : List Char} {t : Token} {ts : List PlacedToken} :
    (∀ c ∈ gap, isBlank c) → t.Spellable → t.EndsBefore rest →
    Spells (offset + gap.length + t.spelling.length) rest ts stop →
    Spells offset (gap ++ (t.spelling ++ rest)) ((t, offset + gap.length) :: ts) stop

theorem isBlank_eq_false_of_isWordStart {c : Char} (h : isWordStart c) : isBlank c = false := by
  by_contra hc
  have hb : isBlank c := by simpa using hc
  simp only [isWordStart, isAlphanumeric_eq_false_of_isBlank hb, Bool.false_or, Bool.or_eq_true,
    beq_iff_eq] at h
  cases h <;> (subst c; exact absurd hb (by decide))

theorem Token.isBlank_head_spelling {t : Token} {rest : List Char} (hs : t.Spellable) :
    ∀ c ∈ (t.spelling ++ rest).head?, isBlank c = false := by
  intro c hc
  cases t
  case endOfInput => exact hs.elim
  case identifier name =>
    simp only [Spellable] at hs
    simp only [spelling] at hc
    cases hn : name.toList <;> simp [hn, isWord] at hs hc
    exact isBlank_eq_false_of_isWordStart <| hc ▸ hs.left
  all_goals
    cases hc
    decide

namespace Token.EndsBefore

variable {t : Token} {cs cs' : List Char}

theorem append_pipe (h : t.EndsBefore cs) : t.EndsBefore (cs ++ '|' :: cs') := by
  cases cs
  case cons => exact h
  case nil  =>
    intro c hc
    cases hc
    exact absorbs_delimiter (by simp)

theorem of_append (h : t.EndsBefore (cs ++ cs')) : t.EndsBefore cs := by
  cases cs
  case cons => exact h
  case nil  => simp [EndsBefore]

end Token.EndsBefore

namespace Lexer

variable {l l' : Lexer} {t : Token} {gap rest : List Char} {ts : List PlacedToken} {stop : Nat}

theorem seek_eq (hr : l.rest = gap ++ rest) (hg : ∀ c ∈ gap, isBlank c)
    (hb : ∀ c ∈ rest.head?, isBlank c = false) :
    l.seek = ⟨rest, l.offset + gap.length, l.offset + gap.length⟩ := by
  have ht : l.rest.takeWhile isBlank = gap := hr ▸ takeWhile_append_eq_left hg hb
  have hd : l.rest.drop gap.length = rest := hr ▸ List.drop_left
  simp only [seek, skipBlanks, skip, ht, hd]

theorem next_eq_endOfInput (hg : ∀ c ∈ l.rest, isBlank c) :
    l.next = (.ok .endOfInput, ⟨[], l.offset + l.rest.length, l.offset + l.rest.length⟩) := by
  have hs := seek_eq (List.append_nil l.rest).symm hg (by simp)
  simp [next, hs, Scan.read, skip]

theorem next_eq_token (hr : l.rest = gap ++ (t.spelling ++ rest)) (hg : ∀ c ∈ gap, isBlank c)
    (hs : t.Spellable) (he : t.EndsBefore rest) :
    l.next = (.ok t, ⟨rest, l.offset + gap.length + t.spelling.length, l.offset + gap.length⟩) := by
  have hk := seek_eq hr hg <| Token.isBlank_head_spelling hs
  simp [next, hk, Scan.read_spelling_append hs he, skip]

theorem rest_eq_blanks_append_seek (l : Lexer) :
    l.rest = l.rest.takeWhile isBlank ++ l.seek.rest :=
  (List.prefix_iff_eq_append.mp <| List.takeWhile_prefix isBlank).symm

theorem eq_layout_of_next_eq_ok (h : l.next = (.ok t, l')) (ht : t ≠ .endOfInput) :
    ∃ gap rest, (∀ c ∈ gap, isBlank c) ∧ t.Spellable ∧ t.EndsBefore rest ∧
      l.rest = gap ++ (t.spelling ++ rest) := by
  unfold next at h
  split at h <;> cases h
  case _ n hr =>
    have ⟨rest, hc, hs, he⟩ := Scan.eq_spelling_of_read_eq_token hr ht
    refine ⟨l.rest.takeWhile isBlank, rest, fun _ => List.mem_takeWhile_imp, hs, he, ?_⟩
    exact hc ▸ l.rest_eq_blanks_append_seek

theorem isBlank_of_next_eq_endOfInput (h : l.next = (.ok .endOfInput, l')) :
    ∀ c ∈ l.rest, isBlank c := by
  unfold next at h
  split at h <;> cases h
  case _ hr =>
    have hs := Scan.eq_nil_of_read_eq_endOfInput hr
    have hr := l.rest_eq_blanks_append_seek
    rw [hs, List.append_nil] at hr
    exact fun c hc => List.mem_takeWhile_imp (hr ▸ hc)

-- All tokens up to the end of input with the places where they start, and the place of the end.
def placed (l : Lexer) : Except LexError (List PlacedToken × Nat) :=
  match _h : l.next with
  | (.error e, _) => .error e
  | (.ok t, l')   =>
    if _ht : t = .endOfInput then
      .ok ([], l'.tokenStart)
    else
      l'.placed.map fun (ts, stop) => ((t, l'.tokenStart) :: ts, stop)
termination_by l.rest.length
decreasing_by exact length_next_lt _h _ht

section

variable {e : LexError}

theorem placed_of_next_error (h : l.next = (.error e, l')) : l.placed = .error e := by
  rw [placed]
  split <;> simp_all

theorem placed_of_next_endOfInput (h : l.next = (.ok .endOfInput, l')) :
    l.placed = .ok ([], l'.tokenStart) := by
  rw [placed]
  split <;> simp_all

theorem placed_of_next_token (h : l.next = (.ok t, l')) (ht : t ≠ .endOfInput) :
    l.placed = l'.placed.map fun (ts, stop) => ((t, l'.tokenStart) :: ts, stop) := by
  rw [placed]
  split <;> simp_all

theorem tokens_of_next_error (h : l.next = (.error e, l')) : l.tokens = .error e := by
  rw [tokens]
  split <;> simp_all

theorem tokens_of_next_endOfInput (h : l.next = (.ok .endOfInput, l')) :
    l.tokens = .ok [.endOfInput] := by
  rw [tokens]
  split <;> simp_all

theorem tokens_of_next_token (h : l.next = (.ok t, l')) (ht : t ≠ .endOfInput) :
    l.tokens = l'.tokens.map (t :: ·) := by
  rw [tokens]
  split <;> simp_all

end

theorem tokens_eq_placed :
    l.tokens = l.placed.map fun (ts, _) => ts.map Prod.fst ++ [.endOfInput] := by
  induction l using placed.induct
  case case1 h       => rw [tokens_of_next_error h, placed_of_next_error h]; rfl
  case case2 h       => rw [tokens_of_next_endOfInput h, placed_of_next_endOfInput h]; rfl
  case case3 l' h ht hi =>
    rw [tokens_of_next_token h ht, placed_of_next_token h ht, hi]
    cases l'.placed <;> rfl

theorem placed_eq_ok_iff : (l.placed = .ok (ts, stop)) ↔ Spells l.offset l.rest ts stop := by
  constructor <;> intro h
  case mp =>
    induction l using placed.induct generalizing ts stop
    case case1 hn => simp [placed_of_next_error hn] at h
    case case2 hn =>
      have hg := isBlank_of_next_eq_endOfInput hn
      have hn' := Prod.mk.inj <| hn.symm.trans <| next_eq_endOfInput hg
      simp only [placed_of_next_endOfInput hn, hn'.right, Except.ok.injEq, Prod.mk.injEq] at h
      exact h.left ▸ h.right ▸ .nil hg
    case case3 t l' hn ht hi =>
      have ⟨gap, rest, hg, hs, he, hr⟩ := eq_layout_of_next_eq_ok hn ht
      have hn' := (Prod.mk.inj <| hn.symm.trans <| next_eq_token hr hg hs he).right
      rw [placed_of_next_token hn ht] at h
      match hp : l'.placed with
      | .error _       => simp [hp, Except.map] at h
      | .ok (ts', end') =>
        simp only [hp, Except.map, Except.ok.injEq, Prod.mk.injEq] at h
        have hi := hi hp
        rw [hn'] at hi h
        exact h.left ▸ h.right ▸ hr ▸ .cons hg hs he hi
  case mpr =>
    generalize hr : l.rest = cs, ho : l.offset = offset at h
    induction h generalizing l
    case nil hg =>
      have hn := next_eq_endOfInput (hr ▸ hg)
      rw [placed_of_next_endOfInput hn, hr, ho]
    case cons hg hs he _ hi =>
      have hn := next_eq_token hr hg hs he
      rw [placed_of_next_token hn hs.ne_endOfInput, hi rfl (ho ▸ rfl), ho]
      rfl

end Lexer

theorem tokenize_eq_ok_iff {text : String} {us : List Token} :
    (tokenize text = .ok us) ↔
      ∃ ts stop, Spells 0 text.toList ts stop ∧ us = ts.map Prod.fst ++ [.endOfInput] := by
  have hp {ts stop} :
      ((Lexer.ofText text).placed = .ok (ts, stop)) ↔ Spells 0 text.toList ts stop :=
    Lexer.placed_eq_ok_iff
  rw [tokenize, Lexer.tokens_eq_placed]
  constructor <;> intro h
  case mp =>
    match hl : (Lexer.ofText text).placed with
    | .error _       => simp [hl, Except.map] at h
    | .ok (ts, stop) =>
      simp only [hl, Except.map, Except.ok.injEq] at h
      exact ⟨ts, stop, hp.mp hl, h.symm⟩
  case mpr =>
    have ⟨ts, stop, hs, hu⟩ := h
    simp only [hp.mpr hs, Except.map, hu]

theorem tokenize_eq_ok_append_iff {text : String} {us : List Token} :
    (tokenize text = .ok (us ++ [.endOfInput])) ↔
      ∃ ts stop, Spells 0 text.toList ts stop ∧ us = ts.map Prod.fst := by
  simp [tokenize_eq_ok_iff]

namespace Spells

variable {offset stop place d : Nat} {cs cs' : List Char} {ts ts' : List PlacedToken}

theorem stop_eq (h : Spells offset cs ts stop) : stop = offset + cs.length := by
  induction h
  case nil => rfl
  case cons hi => simp [hi]; omega

theorem spellable (h : Spells offset cs ts stop) : ∀ u ∈ ts, u.1.Spellable := by
  induction h
  case nil => simp
  case cons hs _ _ hi => exact List.forall_mem_cons.mpr ⟨hs, hi⟩

theorem le_place (h : Spells offset cs ts stop) :
    ∀ t ∈ ts ++ [(.endOfInput, stop)], offset ≤ t.2 := by
  induction h
  case nil => simp
  case cons hi =>
    refine List.forall_mem_cons.mpr ⟨Nat.le_add_right .., fun u hu => ?_⟩
    exact Nat.le_trans (by rw [Nat.add_assoc]; exact Nat.le_add_right ..) (hi u hu)

theorem pairwise_lt (h : Spells offset cs ts stop) :
    (ts ++ [(Token.endOfInput, stop)]).Pairwise fun t u => t.2 < u.2 := by
  induction h
  case nil => simp
  case cons hs _ hr hi =>
    refine List.pairwise_cons.mpr ⟨fun u hu => ?_, hi⟩
    have hp := List.length_pos_iff.mpr hs.spelling_ne_nil
    exact Nat.lt_of_lt_of_le (Nat.lt_add_of_pos_right hp) <| hr.le_place u hu

-- Behind what comes before the offset, each token stands in the text at its place.
theorem spelling_isPrefix {front : List Char} (h : Spells offset cs ts stop)
    (hf : front.length = offset) : ∀ t ∈ ts, t.1.spelling <+: (front ++ cs).drop t.2 := by
  induction h generalizing front
  case nil => simp
  case cons offset _ gap rest t _ _ _ _ _ hi =>
    refine List.forall_mem_cons.mpr ⟨?_, fun u hu => ?_⟩
    · rw [←List.append_assoc, List.drop_left' (by simp [hf])]
      exact List.prefix_append ..
    · have hi := @hi (front ++ (gap ++ t.spelling)) (by simp [hf]; omega) u hu
      simpa using hi

theorem move (h : Spells offset cs ts stop) :
    Spells (offset + d) cs (ts.map <| .relocate (· + d)) (stop + d) := by
  induction h
  case nil offset gap hg =>
    rw [Nat.add_right_comm]
    exact .nil hg
  case cons offset stop gap rest t ts hg hs he _ hi =>
    have ho : offset + gap.length + d = offset + d + gap.length := Nat.add_right_comm ..
    rw [Nat.add_right_comm _ _ d, ho] at hi
    rw [List.map_cons, PlacedToken.relocate, ho]
    exact .cons hg hs he hi

-- A bar ends whatever stands before it and needs no blank on either side.
theorem append_pipe (h : Spells offset cs ts place) (h' : Spells (place + 1) cs' ts' stop) :
    Spells offset (cs ++ '|' :: cs') (ts ++ (.pipe, place) :: ts') stop := by
  induction h
  case nil hg => exact .cons (t := .pipe) hg trivial (fun _ _ => rfl) h'
  case cons hg hs he _ hi =>
    rw [List.append_assoc, List.append_assoc]
    exact .cons hg hs he.append_pipe (hi h')

-- A text can be cut at the bars among its tokens. Bars within quotes are not among them.
theorem exists_parts (h : Spells offset cs ts stop) :
    ∃ parts, cs = ['|'].intercalate parts ∧
      List.Forall₂
        (fun part us => .pipe ∉ us ∧ ∃ vs place, Spells 0 part vs place ∧ us = vs.map Prod.fst)
        parts ((ts.map Prod.fst).splitOn .pipe) := by
  induction h
  case nil gap hg => exact ⟨[gap], by simp, .cons ⟨by simp, [], _, .nil hg, rfl⟩ .nil⟩
  case cons gap rest t ts hg hs he _ hi =>
    have ⟨parts, hr, hp⟩ := hi
    have ⟨us, uss, hu⟩ := List.exists_cons_of_ne_nil <| List.splitOn_ne_nil .pipe (ts.map Prod.fst)
    rw [List.map_cons, List.splitOn_cons_eq_if_modifyHead]
    rw [hu] at hp ⊢
    cases hp
    case cons part parts hq hp =>
    by_cases ht : t = .pipe
    case pos =>
      cases ht
      refine ⟨gap :: part :: parts, ?_, .cons ⟨by simp, [], _, .nil hg, rfl⟩ <| .cons hq hp⟩
      simp [Token.spelling, hr]
    case neg =>
      obtain ⟨hb, vs, place, hv, hus⟩ := hq
      have he : t.EndsBefore part := by
        cases parts
        case nil  => simpa [hr] using he
        case cons =>
          rw [hr, List.intercalate_cons_cons, List.append_assoc] at he
          exact he.of_append
      have hv := hv.move (d := gap.length + t.spelling.length)
      rw [←Nat.add_assoc] at hv
      simp only [beq_iff_eq, ht, if_false, List.modifyHead]
      have hs := Spells.cons hg hs he hv
      refine ⟨(gap ++ (t.spelling ++ part)) :: parts, ?text, .cons ⟨?bars, _, _, hs, ?tokens⟩ hp⟩
      case text   => cases parts <;> simp [hr]
      case bars   => simpa [eq_comm, ht] using hb
      case tokens => simp [hus, PlacedToken.relocate, Function.comp_def]

end Spells

theorem spellable_of_tokenize {text : String} {ts : List Token}
    (h : tokenize text = .ok (ts ++ [.endOfInput])) : ∀ t ∈ ts, t.Spellable := by
  have ⟨us, _, hs, hu⟩ := tokenize_eq_ok_append_iff.mp h
  simpa [hu] using hs.spellable

end TreeQuery
