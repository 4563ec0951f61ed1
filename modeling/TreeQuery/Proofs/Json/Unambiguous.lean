import TreeQuery.Proofs.Json.Reader

-- A text spells one value at most.
namespace TreeQuery.Json

variable {β : Type} {spelled : β → List Char → Prop} {bs bs' : List β} {isFirst : Bool}
variable {cs cs' rest rest' : List Char} {v v' : Value} {c close : Char} {n : Nat}

-- The characters of numbers. Only what stands behind a number shows where it ends.
def isNumeric (c : Char) : Bool :=
  isDigit c || c = '+' || c = '-' || c = '.' || c = 'e' || c = 'E'

def EndsNumber (rest : List Char) : Prop :=
  ∀ c ∈ rest.head?, isNumeric c = false

theorem Digits.isNumeric (h : Digits cs) : ∀ c ∈ cs, isNumeric c := by
  intro c hc
  simp [Json.isNumeric, h.right c hc]

theorem Fraction.isNumeric (h : Fraction cs) : ∀ c ∈ cs, isNumeric c := by
  cases h
  case absent  => exact List.forall_mem_nil _
  case point h => exact List.forall_mem_cons.mpr ⟨rfl, h.isNumeric⟩

theorem Exponent.isNumeric (h : Exponent cs) : ∀ c ∈ cs, isNumeric c := by
  cases h
  case absent       => exact List.forall_mem_nil _
  case mark hm hs h =>
    have hm' : ∀ mark ∈ ['e', 'E'], Json.isNumeric mark := by simp [Json.isNumeric]
    have hs' : ∀ sign ∈ [[], ['+'], ['-']], ∀ c ∈ sign, Json.isNumeric c := by
      simp [Json.isNumeric]
    rw [List.forall_mem_append, List.forall_mem_cons]
    exact ⟨⟨hm' _ hm, hs' _ hs⟩, h.isNumeric⟩

theorem Number.isNumeric (h : Number cs) : ∀ c ∈ cs, isNumeric c := by
  cases h
  case mk hs hw _ hf he =>
    have hs' : ∀ sign ∈ [[], ['-']], ∀ c ∈ sign, Json.isNumeric c := by simp [Json.isNumeric]
    simp only [List.forall_mem_append]
    exact ⟨⟨⟨hs' _ hs, hw.isNumeric⟩, hf.isNumeric⟩, he.isNumeric⟩

theorem Number.dropWhile_append (h : Number cs) (hr : EndsNumber rest) :
    (cs ++ rest).dropWhile Json.isNumeric = rest := by
  rw [List.dropWhile_append_of_pos h.isNumeric]
  cases rest
  case nil  => rfl
  case cons => exact List.dropWhile_cons_of_neg <| by simp [hr _ rfl]

theorem endsNumber_append (h : EndsNumber cs) (hr : EndsNumber rest) : EndsNumber (cs ++ rest) := by
  cases cs
  case nil  => exact hr
  case cons => exact h

theorem Blanks.endsNumber (h : Blanks cs) : EndsNumber cs := by
  intro c hc
  have hb := h c <| List.mem_of_mem_head? hc
  simp only [isBlank, Bool.or_eq_true, decide_eq_true_eq] at hb
  rcases hb with ((rfl | rfl) | rfl) | rfl <;> rfl

theorem Items.endsNumber (h : Items spelled false bs cs) : EndsNumber cs := by
  cases h
  case done hg => exact hg.endsNumber
  case next hg _ _ _ =>
    simp only [List.append_assoc]
    refine endsNumber_append hg.endsNumber ?_
    rintro c ⟨⟩
    rfl

theorem Quoted.unambiguous {s s' : String} (h : Quoted s cs) (h' : Quoted s' cs')
    (he : cs ++ rest = cs' ++ rest') : s = s' ∧ rest = rest' := by
  have hr : Reader.readQuoted (cs ++ rest) = .ok (s, rest) := h.readQuoted_append
  have hr' : Reader.readQuoted (cs ++ rest) = .ok (s', rest') := he ▸ h'.readQuoted_append
  cases hr.symm.trans hr'
  exact ⟨rfl, rfl⟩

theorem Value.Spelled.skipBlanks_append {gap : List Char} (h : v.Spelled cs) (hg : Blanks gap) :
    skipBlanks (gap ++ (cs ++ rest)) = cs ++ rest := by
  have ⟨_, _, hcs, hv⟩ := h.exists_start
  rw [hcs]
  exact hg.skipBlanks_append_cons <| Value.isBlank_eq_false_of_startsWith hv

-- Two spellings at the head of one text are of the same thing and leave the same rest, unless both
-- are longer than `n`.
structure Unambiguous (spelled : β → List Char → Prop) (n : Nat) : Prop where
  eq {b b' cs cs' rest rest'} : cs.length ≤ n → spelled b cs → spelled b' cs' →
    EndsNumber rest → EndsNumber rest' → cs ++ rest = cs' ++ rest' → b = b' ∧ rest = rest'

namespace Unambiguous

section

variable (h : Unambiguous spelled n) (hi : IsItem close spelled) (hb : isBlank close = false)
variable (hc : close ≠ ',') (hn : isNumeric close = false)
include h hi hb hc hn

theorem items (hs : Items spelled isFirst bs cs) (hs' : Items spelled isFirst bs' cs')
    (hl : cs.length ≤ n) (he : cs ++ close :: rest = cs' ++ close :: rest') :
    bs = bs' ∧ rest = rest' := by
  have hr {rest : List Char} : EndsNumber (close :: rest) := by
    rintro c ⟨⟩
    exact hn
  induction bs generalizing bs' isFirst cs cs'
  case nil =>
    cases hs
    case done hg =>
      have hd : nextItem close isFirst (cs ++ close :: rest) = .ok (.done rest) :=
        nextItem_of_blanks hb hg
      cases bs'
      case nil =>
        cases hs'
        case done hg' =>
          have hd' : nextItem close isFirst (cs' ++ close :: rest') = .ok (.done rest') :=
            nextItem_of_blanks hb hg'
          cases hd.symm.trans <| he ▸ hd'
          exact ⟨rfl, rfl⟩
      case cons =>
        obtain ⟨_, _, _, _, hd'⟩ := hs'.exists_next hi hc
        cases hd.symm.trans <| he ▸ hd' _
  case cons b bs ih =>
    obtain ⟨item, others, hitem, hothers, hd⟩ := hs.exists_next hi hc
    cases bs'
    case nil =>
      cases hs'
      case done hg' =>
        have hd' : nextItem close isFirst (cs' ++ close :: rest') = .ok (.done rest') :=
          nextItem_of_blanks hb hg'
        cases (hd _).symm.trans <| he ▸ hd'
    case cons b' bs' =>
      obtain ⟨item', others', hitem', hothers', hd'⟩ := hs'.exists_next hi hc
      have hlen : item.length + others.length ≤ cs.length := by
        simpa using length_le_of_nextItem_eq_item (hd [])
      have he' := (hd (close :: rest)).symm.trans <| he ▸ hd' (close :: rest')
      simp only [Except.ok.injEq, Continuation.item.injEq] at he'
      have ⟨hbb, hee⟩ := h.eq (by omega) hitem hitem' (endsNumber_append hothers.endsNumber hr)
        (endsNumber_append hothers'.endsNumber hr) he'
      have ⟨hbs, hrest⟩ := ih hothers hothers' (by omega) hee
      exact ⟨by rw [hbb, hbs], hrest⟩

-- One character less is enough for what stands between brackets.
theorem enclosed {opening : Char} (hs : Items spelled true bs cs)
    (hs' : Items spelled true bs' cs') (hl : (opening :: cs ++ [close]).length ≤ n + 1)
    (he : opening :: cs ++ [close] ++ rest = opening :: cs' ++ [close] ++ rest') :
    bs = bs' ∧ rest = rest' := by
  refine h.items hi hb hc hn hs hs' ?_ (by simpa using he)
  simp only [List.length_append, List.length_cons] at hl
  omega

end

theorem members (h : Unambiguous Value.Spelled n) :
    Unambiguous (MemberSpelled Value.Spelled) n := by
  refine ⟨fun {m m' cs cs' rest rest'} hl hm hm' hr hr' he => ?_⟩
  cases hm
  case mk ks gap₁ gap₂ cs hk hg₁ hg₂ hv =>
    cases hm'
    case mk ks' gap₁' gap₂' cs' hk' hg₁' hg₂' hv' =>
      simp only [List.append_assoc, List.cons_append] at he
      have ⟨hkey, he⟩ := hk.unambiguous hk' he
      have he := congrArg skipBlanks he
      rw [hg₁.skipBlanks_append_cons rfl, hg₁'.skipBlanks_append_cons rfl] at he
      have he := congrArg skipBlanks <| List.tail_eq_of_cons_eq he
      rw [hv.skipBlanks_append hg₂, hv'.skipBlanks_append hg₂'] at he
      have hl : cs.length ≤ n := by
        simp only [List.length_append, List.length_cons] at hl
        omega
      have ⟨hvv, hrest⟩ := h.eq hl hv hv' hr hr' he
      exact ⟨by rw [hkey, hvv], hrest⟩

end Unambiguous

namespace Value

theorem startsWith_number (h : number.startsWith c) : v.startsWith c ↔ v = .number := by
  have hne (d : Char) (hd : number.startsWith d = false) : c ≠ d := by
    rintro rfl
    simp [h] at hd
  cases v
  case number => simp [h]
  case boolean => simp [startsWith, hne 't' rfl, hne 'f' rfl]
  all_goals simp [startsWith, hne 'n' rfl, hne '"' rfl, hne '[' rfl, hne '\x7b' rfl]

theorem startsWith_t : v.startsWith 't' ↔ ∃ b, v = .boolean b := by
  cases v <;> simp [startsWith, isDigit]

theorem startsWith_f : v.startsWith 'f' ↔ ∃ b, v = .boolean b := by
  cases v <;> simp [startsWith, isDigit]

theorem Spelled.startsWith_of_append_eq {tail : List Char} (h : v.Spelled cs)
    (he : c :: tail = cs ++ rest) : v.startsWith c := by
  obtain ⟨_, _, rfl, hv⟩ := h.exists_start
  exact (List.cons.inj he).left ▸ hv

theorem unambiguous_spelled (n : Nat) : Unambiguous Value.Spelled n := by
  induction n
  case zero =>
    refine ⟨fun hl h => ?_⟩
    obtain ⟨_, _, rfl, _⟩ := h.exists_start
    cases hl
  case succ n hi =>
    refine ⟨fun {v v' cs cs' rest rest'} hl h h' hr hr' he => ?_⟩
    cases h
    case null =>
      cases startsWith_n.mp <| h'.startsWith_of_append_eq he
      cases h'
      exact ⟨rfl, List.append_cancel_left he⟩
    case isTrue =>
      have ⟨_, hb⟩ := startsWith_t.mp <| h'.startsWith_of_append_eq he
      cases hb
      cases h'
      case isTrue  => exact ⟨rfl, List.append_cancel_left he⟩
      case isFalse => cases he
    case isFalse =>
      have ⟨_, hb⟩ := startsWith_f.mp <| h'.startsWith_of_append_eq he
      cases hb
      cases h'
      case isTrue  => cases he
      case isFalse => exact ⟨rfl, List.append_cancel_left he⟩
    case number h =>
      have ⟨c, _, hcs, hc⟩ := (Spelled.number h).exists_start
      cases (startsWith_number hc).mp <| h'.startsWith_of_append_eq (hcs ▸ he)
      cases h'
      case number h' =>
        have hd := congrArg (List.dropWhile isNumeric) he
        rw [h.dropWhile_append hr, h'.dropWhile_append hr'] at hd
        exact ⟨rfl, hd⟩
    case text h =>
      have ⟨_, hcs, _⟩ := h.exists_readText
      have ⟨_, hs⟩ := startsWith_quote.mp <| h'.startsWith_of_append_eq (hcs ▸ he)
      cases hs
      cases h'
      case text h' =>
        have ⟨hs, hrest⟩ := h.unambiguous h' he
        exact ⟨by rw [hs], hrest⟩
    case array hs =>
      have ⟨_, hvs⟩ := startsWith_bracket.mp <| h'.startsWith_of_append_eq he
      cases hvs
      cases h'
      case array hs' =>
        have ⟨hvs, hrest⟩ := hi.enclosed isItem_value rfl (by decide) rfl hs hs' hl he
        exact ⟨by rw [hvs], hrest⟩
    case object hs =>
      have ⟨_, hms⟩ := startsWith_brace.mp <| h'.startsWith_of_append_eq he
      cases hms
      cases h'
      case object hs' =>
        have ⟨hms, hrest⟩ := hi.members.enclosed isItem_member rfl (by decide) rfl hs hs' hl he
        exact ⟨by rw [hms], hrest⟩

-- A document has one value, whichever way it is taken apart.
theorem SpelledBy.eq {text : String} (h : v.SpelledBy text) (h' : v'.SpelledBy text) : v = v' := by
  cases h
  case mk hg hs hr ht =>
    cases h'
    case mk hg' hs' hr' ht' =>
      have he := congrArg skipBlanks <| ht.symm.trans ht'
      rw [List.append_assoc, List.append_assoc, hs.skipBlanks_append hg,
        hs'.skipBlanks_append hg'] at he
      have hu := unambiguous_spelled _ |>.eq (Nat.le_refl _) hs hs' hr.endsNumber hr'.endsNumber he
      exact hu.left

theorem SpelledBy.iff_eq {text : String} (h : v.SpelledBy text) : v'.SpelledBy text ↔ v' = v where
  mp h'  := h'.eq h
  mpr he := he ▸ h

end Value
end TreeQuery.Json
