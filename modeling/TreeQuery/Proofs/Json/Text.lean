import TreeQuery.Proofs.Json.Spelling

namespace TreeQuery.Json

variable {c : Char} {cs rest high low piece : List Char} {unit : Nat}

theorem UnitSpelled.exists_digits (h : UnitSpelled unit cs) :
    ∃ a b c d, cs = [a, b, c, d] ∧ hexDigit? a = some (unit / 0x1000) ∧
      hexDigit? b = some (unit / 0x100 % 0x10) ∧ hexDigit? c = some (unit / 0x10 % 0x10) ∧
      hexDigit? d = some (unit % 0x10) := by
  match cs, h with
  | [a, b, c, d], .cons ha (.cons hb (.cons hc (.cons hd .nil))) =>
    exact ⟨a, b, c, d, rfl, ha, hb, hc, hd⟩

theorem UnitSpelled.length_eq (h : UnitSpelled unit cs) : cs.length = 4 :=
  (List.Forall₂.length_eq h).symm

theorem UnitSpelled.read (h : UnitSpelled unit cs) : readUnit (cs ++ rest) = .ok unit := by
  have ⟨a, b, c, d, hcs, ha, hb, hc, hd⟩ := h.exists_digits
  have hu : ((unit / 0x1000 * 16 + unit / 0x100 % 0x10) * 16 + unit / 0x10 % 0x10) * 16 +
      unit % 0x10 = unit := by omega
  simp [readUnit, hcs, ha, hb, hc, hd, hu]

theorem toNat_valid (c : Char) : c.toNat < 0xd800 ∨ 0xdfff < c.toNat ∧ c.toNat < 0x110000 :=
  c.valid

theorem readUnits_of_unit (h : UnitSpelled c.toNat cs) : readUnits (cs ++ rest) = .ok (c, 4) := by
  have hv := toNat_valid c
  have hl : isLowSurrogate c.toNat = false := by simp [isLowSurrogate]; omega
  have hh : isHighSurrogate c.toNat = false := by simp [isHighSurrogate]; omega
  simp [readUnits, h.read, hl, hh, bind, Except.bind, pure, Except.pure]

theorem readUnits_of_pair (hc : 0x10000 ≤ c.toNat)
    (hh : UnitSpelled (0xd800 + (c.toNat - 0x10000) / 0x400) high)
    (hl : UnitSpelled (0xdc00 + (c.toNat - 0x10000) % 0x400) low) :
    readUnits (high ++ '\\' :: 'u' :: (low ++ rest)) = .ok (c, 10) := by
  have hv := toNat_valid c
  generalize hm : (c.toNat - 0x10000) / 0x400 = m at hh
  generalize hn : (c.toNat - 0x10000) % 0x400 = n at hl
  have hhigh : isLowSurrogate (0xd800 + m) = false := by simp [isLowSurrogate]; omega
  have hhigh' : isHighSurrogate (0xd800 + m) = true := by simp [isHighSurrogate]; omega
  have hlow : isLowSurrogate (0xdc00 + n) = true := by simp [isLowSurrogate]; omega
  have hd : (high ++ '\\' :: 'u' :: (low ++ rest)).drop 4 = '\\' :: 'u' :: (low ++ rest) :=
    List.drop_left' hh.length_eq
  have ht : 0x10000 + m * 0x400 + n = c.toNat := by omega
  simp [readUnits, hh.read, hd, hl.read, hhigh, hhigh', hlow, ht, bind, Except.bind, pure,
    Except.pure]

theorem readEscape_of_short {letter : Char} (h : (letter, c) ∈ shortEscapes) :
    readEscape (letter :: rest) = .ok (c, 1) := by
  simp only [shortEscapes, List.mem_cons, Prod.mk.injEq, List.not_mem_nil, or_false] at h
  rcases h with ⟨rfl, rfl⟩ | ⟨rfl, rfl⟩ | ⟨rfl, rfl⟩ | ⟨rfl, rfl⟩ | ⟨rfl, rfl⟩ | ⟨rfl, rfl⟩ |
    ⟨rfl, rfl⟩ | ⟨rfl, rfl⟩ <;> rfl

theorem readText_of_readEscape {length : Nat} (h : readEscape cs = .ok (c, length)) :
    readText ('\\' :: cs) =
      (readText (cs.drop length)).map fun (text, rest) => (c :: text, rest) := by
  rw [readText, if_neg (by decide), if_pos rfl, h]

theorem CharSpelled.read (h : CharSpelled c piece) :
    readText (piece ++ rest) = (readText rest).map fun (text, rest) => (c :: text, rest) := by
  cases h
  case plain hq hb hc =>
    rw [List.singleton_append, readText, if_neg hq, if_neg hb, if_neg (by omega)]
  case short hm => exact readText_of_readEscape <| readEscape_of_short hm
  case unit digits h =>
    have he : readEscape ('u' :: (digits ++ rest)) = .ok (c, 5) := by
      simp [readEscape, readUnits_of_unit h, Except.map]
    have hd : ('u' :: (digits ++ rest)).drop 5 = rest := List.drop_left' h.length_eq
    exact (readText_of_readEscape he).trans <| by rw [hd]
  case pair high low hc hh hl =>
    have he : readEscape ('u' :: (high ++ '\\' :: 'u' :: (low ++ rest))) = .ok (c, 11) := by
      simp [readEscape, readUnits_of_pair hc hh hl, Except.map]
    have hd : ('u' :: (high ++ '\\' :: 'u' :: (low ++ rest))).drop 11 = rest := by
      have hp : (high ++ '\\' :: 'u' :: low).length = 10 := by
        simp [hh.length_eq, hl.length_eq]
      have hd : ((high ++ '\\' :: 'u' :: low) ++ rest).drop 10 = rest := List.drop_left' hp
      simpa using hd
    rw [List.cons_append, List.cons_append, List.append_assoc]
    exact (readText_of_readEscape he).trans <| by rw [hd]

-- A text is read back from each spelling of it.
theorem Quoted.exists_readText {s : String} (h : Quoted s cs) :
    ∃ body, cs = '"' :: body ∧ ∀ rest, readText (body ++ rest) = .ok (s.toList, rest) := by
  cases h
  case mk pieces h =>
    refine ⟨pieces.flatten ++ ['"'], rfl, fun rest => ?_⟩
    generalize s.toList = text at h
    rw [List.append_assoc]
    induction h
    case nil => simp [readText]
    case cons hc _ hi =>
      rw [List.flatten_cons, List.append_assoc, hc.read, hi]
      rfl

-- Where no character has to be escaped, a text can stand between quotes as it is.
theorem Quoted.of_plain {s : String}
    (h : ∀ c ∈ s.toList, c ≠ '"' ∧ c ≠ '\\' ∧ 0x20 ≤ c.toNat) :
    Quoted s ('"' :: s.toList ++ ['"']) := by
  have hp : List.Forall₂ CharSpelled s.toList (s.toList.map fun c => [c]) := by
    rw [List.forall₂_map_right_iff, List.forall₂_same]
    intro c hc
    have ⟨hq, hb, hn⟩ := h c hc
    exact .plain hq hb hn
  have hf : (s.toList.map fun c => [c]).flatten = s.toList := by
    rw [← List.flatMap_def, List.flatMap_singleton']
  exact hf ▸ Quoted.mk hp

end TreeQuery.Json
