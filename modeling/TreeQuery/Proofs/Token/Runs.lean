import TreeQuery.Proofs.Token.Language

namespace TreeQuery

variable {c : Char} {cs : List Char} {f : LexFault} {k n : Nat}

namespace Quotation

theorem push_eq_unclosed_iff {width : Nat} {q : Quotation} :
    (push c width q = unclosed n) ↔ ∃ m, q = unclosed m ∧ n = width + m := by
  cases q <;> simp [push, eq_comm]

theorem push_eq_invalidEscape_iff {d : Char} {width : Nat} {q : Quotation} :
    (push c width q = invalidEscape d k) ↔ ∃ j, q = invalidEscape d j ∧ k = width + j := by
  cases q <;> simp [push, eq_comm, and_assoc]

theorem length_of_read_eq_unclosed (h : read cs = unclosed n) : n = cs.length := by
  fun_induction read cs generalizing n
  case case1 => simpa using h.symm
  case case2 => simp at h
  case case3 => simpa using h.symm
  case case4 hi | case5 hi | case7 hi =>
    have ⟨m, hq, hn⟩ := push_eq_unclosed_iff.mp h
    simp only [hn, hi hq, List.length_cons]
    omega
  case case6 => simp at h

theorem isPrefix_of_read_eq_invalidEscape (h : read cs = invalidEscape c k) :
    ['\\', c] <+: cs.drop k := by
  fun_induction read cs generalizing k
  case case1 | case2 | case3 => simp at h
  case case4 hi | case5 hi | case7 hi =>
    obtain ⟨j, hq, rfl⟩ := push_eq_invalidEscape_iff.mp h
    simpa [Nat.add_comm _ j] using hi hq
  case case6 =>
    cases h
    simp

end Quotation

namespace LexFault

-- A scan stops behind the backslash of an escape that does not exist, and at the end of a text that
-- should have a closing quote. Other faults are not read over.
def length (cs : List Char) (offset : Nat) : LexFault → Nat
  | invalidEscape _            => offset + 1
  | unterminated               => cs.length
  | loneTilde | unexpected _   => 0

-- The character to blame, and with a backslash also the one that it stands in front of.
def culprit : LexFault → List Char
  | invalidEscape c => ['\\', c]
  | unterminated    => ['\'']
  | loneTilde       => ['~']
  | unexpected c    => [c]

-- The fault lies with a character that no token starts with.
def blocks : LexFault → Bool
  | invalidEscape _ | unterminated => false
  | loneTilde | unexpected _       => true

-- Where a fault is met in the text that is scanned, and how much the scan has read. Only an escape
-- can be at fault within a token. Other faults lie with its first character.
structure MetAt (f : LexFault) (cs : List Char) (k n : Nat) : Prop where
  length_eq        : n = f.length cs k
  culprit_isPrefix : f.culprit <+: cs.drop k
  offset_eq        : (∀ c, f ≠ .invalidEscape c) → k = 0

theorem culprit_ne_nil : f.culprit ≠ [] := by
  cases f <;> simp [culprit]

end LexFault

namespace Scan

theorem metAt_of_read_eq_fault (h : read cs = fault f k n) : f.MetAt cs k n := by
  unfold read at h
  split at h
  case h_13    =>
    cases h
    exact ⟨rfl, by simp [LexFault.culprit], fun _ => rfl⟩
  case h_14 cs =>
    cases hq : Quotation.read cs <;> simp only [hq, ofQuotation, fault.injEq, reduceCtorEq] at h
    case invalidEscape =>
      obtain ⟨rfl, rfl, rfl⟩ := h
      have hp := Quotation.isPrefix_of_read_eq_invalidEscape hq
      refine ⟨?_, by simpa [LexFault.culprit, Nat.add_comm 1] using hp, fun hf => absurd rfl (hf _)⟩
      simp only [LexFault.length]
      omega
    case unclosed =>
      obtain ⟨rfl, rfl, rfl⟩ := h
      refine ⟨?_, by simp [LexFault.culprit], fun _ => rfl⟩
      simp only [LexFault.length, List.length_cons, Quotation.length_of_read_eq_unclosed hq]
      omega
  case h_15    =>
    split at h <;> cases h
    exact ⟨rfl, by simp [LexFault.culprit], fun _ => rfl⟩
  all_goals cases h

theorem length_le_of_read_eq_token {t : Token} (h : read cs = token t n) : n ≤ cs.length := by
  by_cases ht : t = .endOfInput
  case pos =>
    subst ht
    have hc := eq_nil_of_read_eq_endOfInput h
    subst hc
    cases h
    exact Nat.le_refl 0
  case neg =>
    have ⟨_, hc, hs, he⟩ := eq_spelling_of_read_eq_token h ht
    rw [hc, read_spelling_append hs he] at h
    cases h
    simp [hc]

theorem length_le_of_read_eq_fault (h : read cs = fault f k n) : k < cs.length ∧ n ≤ cs.length := by
  have hm := metAt_of_read_eq_fault h
  have hn := hm.length_eq
  have hp := hm.culprit_isPrefix.length_le
  have hc := List.length_pos_iff.mpr f.culprit_ne_nil
  rw [List.length_drop] at hp
  cases f <;> simp only [LexFault.length] at hn <;> simp only [hn] <;> omega

end Scan

namespace Lexer

variable {l l' : Lexer} {e : LexError} {text : String}

theorem seek_seek : l.seek.seek = l.seek := by
  have hd : l.seek.rest = l.rest.dropWhile isBlank :=
    List.append_cancel_left <| l.rest_eq_blanks_append_seek.symm.trans
      (List.takeWhile_append_dropWhile).symm
  have hb : ∀ c ∈ l.seek.rest.head?, isBlank c = false := by
    intro c hc
    have hn := List.head?_dropWhile_not isBlank l.rest
    rw [←hd, Option.mem_def.mp hc] at hn
    simpa using hn
  exact seek_eq (List.nil_append _).symm (by simp) hb

-- Behind an error, a lexer stands within a quotation at the character that cannot be escaped, or
-- it has nothing left to read, or it meets the same error again.
def Behind (l : Lexer) (e : LexError) : Prop :=
  match e.fault with
  | .invalidEscape _           => l.offset = e.position + 1
  | .unterminated              => l.rest = []
  | .loneTilde | .unexpected _ => l.next = (.error e, l)

theorem behind_of_next_eq_error (h : l.next = (.error e, l')) : l'.Behind e := by
  unfold next at h
  split at h <;> cases h
  case _ f k n hs =>
    have hn := (Scan.metAt_of_read_eq_fault hs).length_eq
    cases f <;> simp only [LexFault.length] at hn <;> subst hn
    case invalidEscape => exact (Nat.add_assoc ..).symm
    case unterminated  => simp [Behind, skip]
    case loneTilde | unexpected =>
      have hk : l.seek.skip 0 = l.seek := rfl
      simp [Behind, next, hk, seek_seek, hs]

theorem behind_of_error (h : l.next.1 = .error e) : l.next.2.Behind e :=
  behind_of_next_eq_error <| Prod.ext h rfl

-- What a lexer has not read yet is the rest of the text behind its offset.
def IsIn (l : Lexer) (text : String) : Prop :=
  l.rest = text.toList.drop l.offset

theorem IsIn.skip (h : l.IsIn text) (n : Nat) : (l.skip n).IsIn text := by
  simp only [IsIn, Lexer.skip]
  rw [h, List.drop_drop]

theorem IsIn.next {x} (h : l.IsIn text) (hn : l.next = (x, l')) : l'.IsIn text := by
  have hs : l.seek.IsIn text := h.skip _
  unfold Lexer.next at hn
  split at hn <;> (cases hn; exact hs.skip _)

-- The lexer has not run over the end of its text.
structure InBounds (l : Lexer) (text : String) : Prop where
  isIn          : l.IsIn text
  tokenStart_le : l.tokenStart ≤ l.offset
  offset_le     : l.offset ≤ text.length

-- The next call gives what this call gives, and so does each further one.
def Settled (l : Lexer) : Prop :=
  l.next.2.next = l.next

theorem after_add (m n : Nat) : l.after (m + n) = (l.after m).after n := by
  induction m generalizing l
  case zero      => rw [Nat.zero_add]; rfl
  case succ m hi => rw [Nat.add_right_comm]; exact hi

theorem after_succ (n : Nat) : l.after (n + 1) = (l.after n).next.2 :=
  after_add n 1

namespace Settled

theorem next (h : l.Settled) : l.next.2.Settled := by
  rw [Settled, h, h]

theorem next_after (h : l.Settled) (n : Nat) : (l.after n).next = l.next := by
  induction n generalizing l
  case zero    => rfl
  case succ hi => exact (hi h.next).trans h

theorem next_after_of_le {i j : Nat} (h : (l.after i).Settled) (hj : i ≤ j) :
    (l.after j).next = (l.after i).next := by
  obtain ⟨n, rfl⟩ := Nat.exists_eq_add_of_le hj
  rw [after_add, h.next_after]

end Settled

theorem exists_next_eq_skip (l : Lexer) :
    ∃ n, n ≤ l.seek.rest.length ∧ l.next.2 = l.seek.skip n := by
  unfold next
  split
  case h_1 hs => exact ⟨_, Scan.length_le_of_read_eq_token hs, rfl⟩
  case h_2 hs => exact ⟨_, (Scan.length_le_of_read_eq_fault hs).right, rfl⟩

theorem tokenStart_next (l : Lexer) : l.next.2.tokenStart = l.seek.offset := by
  have ⟨_, _, hn⟩ := l.exists_next_eq_skip
  rw [hn]
  rfl

theorem offset_le_tokenStart_next (l : Lexer) : l.offset ≤ l.next.2.tokenStart :=
  l.tokenStart_next ▸ Nat.le_add_right ..

namespace InBounds

theorem ofText : (Lexer.ofText text).InBounds text where
  isIn          := rfl
  tokenStart_le := Nat.le_refl 0
  offset_le     := Nat.zero_le _

theorem offset_add (h : l.InBounds text) : l.offset + l.rest.length = text.length := by
  have ho := h.offset_le
  rw [h.isIn, List.length_drop, String.length_toList]
  omega

theorem skip (h : l.InBounds text) (hn : n ≤ l.rest.length) : (l.skip n).InBounds text where
  isIn          := h.isIn.skip n
  tokenStart_le := Nat.le_trans h.tokenStart_le <| Nat.le_add_right ..
  offset_le     := by
    have ho := h.offset_add
    simp only [Lexer.skip]
    omega

theorem seek (h : l.InBounds text) : l.seek.InBounds text where
  isIn          := h.isIn.skip _
  tokenStart_le := Nat.le_refl _
  offset_le     := (h.skip (List.takeWhile_prefix isBlank).length_le).offset_le

theorem next (h : l.InBounds text) : l.next.2.InBounds text := by
  have ⟨_, hn, he⟩ := l.exists_next_eq_skip
  exact he ▸ h.seek.skip hn

theorem after (h : l.InBounds text) (n : Nat) : (l.after n).InBounds text := by
  induction n generalizing l
  case zero    => exact h
  case succ hi => exact hi h.next

-- An error is about a character of the text that has not been read over before.
theorem position_of_error (h : l.InBounds text) (he : l.next.1 = .error e) :
    l.next.2.tokenStart ≤ e.position ∧ e.position < text.length ∧
      e.fault.culprit <+: text.toList.drop e.position ∧
      ((∀ c, e.fault ≠ .invalidEscape c) → e.position = l.next.2.tokenStart) := by
  rw [tokenStart_next]
  unfold Lexer.next at he
  split at he <;> cases he
  case _ f k n hs =>
    have hm := Scan.metAt_of_read_eq_fault hs
    have hp := hm.culprit_isPrefix
    have hb := (Scan.length_le_of_read_eq_fault hs).left
    have ho := h.seek.offset_add
    rw [h.seek.isIn, List.drop_drop] at hp
    refine ⟨Nat.le_add_right .., ?_, hp, fun hf => by simp only [hm.offset_eq hf]; rfl⟩
    simp only
    omega

end InBounds

theorem settled_of_blank (hb : ∀ c ∈ l.rest, isBlank c) : l.Settled := by
  rw [Settled, next_eq_endOfInput hb, next_eq_endOfInput (by simp)]
  rfl

theorem settled_of_endOfInput (h : l.next.1 = .ok .endOfInput) : l.Settled :=
  settled_of_blank <| isBlank_of_next_eq_endOfInput (Prod.ext h rfl)

theorem settled_of_error (h : l.next.1 = .error e) (hf : e.fault.blocks) : l.Settled := by
  have hn : l.next = (.error e, l.next.2) := Prod.ext h rfl
  have hb := behind_of_error h
  rw [Settled]
  obtain ⟨_ | _ | _ | _, _⟩ := e <;> simp only [LexFault.blocks, Bool.false_eq_true] at hf
  case loneTilde | unexpected => exact Eq.trans hb hn.symm

theorem next_next_of_unterminated (h : l.next.1 = .error e) (hf : e.fault = .unterminated) :
    l.next.2.next.1 = .ok .endOfInput := by
  have hr := behind_of_error h
  simp only [Behind, hf] at hr
  rw [next_eq_endOfInput (by simp [hr])]

theorem offset_lt_of_token {t : Token} (h : l.next.1 = .ok t) (ht : t ≠ .endOfInput) :
    l.offset < l.next.2.offset := by
  have hn : l.next = (.ok t, l.next.2) := Prod.ext h rfl
  have ⟨_, _, hg, hs, he, hr⟩ := eq_layout_of_next_eq_ok hn ht
  have hp := List.length_pos_iff.mpr hs.spelling_ne_nil
  rw [next_eq_token hr hg hs he]
  simp only
  omega

theorem offset_lt_of_error (h : l.next.1 = .error e) (hf : e.fault.blocks = false) :
    l.offset < l.next.2.offset := by
  unfold next at h ⊢
  split at h <;> cases h
  case _ f k n hs =>
    have hn := (Scan.metAt_of_read_eq_fault hs).length_eq
    have hk := (Scan.length_le_of_read_eq_fault hs).left
    have hl : l.offset ≤ l.seek.offset := Nat.le_add_right ..
    cases f <;> simp only [LexFault.blocks, Bool.true_eq_false] at hf <;>
      simp only [LexFault.length] at hn <;> simp only [skip] <;> omega

-- Each call either reads on or does what all calls from then on do.
theorem settled_or_offset_lt (l : Lexer) : l.Settled ∨ l.offset < l.next.2.offset := by
  cases ha : l.next.1
  case ok t =>
    by_cases ht : t = .endOfInput
    case pos => exact .inl <| settled_of_endOfInput (ht ▸ ha)
    case neg => exact .inr <| offset_lt_of_token ha ht
  case error e =>
    cases hf : e.fault.blocks
    case true  => exact .inl <| settled_of_error ha hf
    case false => exact .inr <| offset_lt_of_error ha hf

theorem settled_after_or_le_offset (l : Lexer) (n : Nat) :
    (l.after n).Settled ∨ n ≤ (l.after n).offset := by
  induction n
  case zero      => exact .inr <| Nat.zero_le _
  case succ n hi =>
    rw [after_succ]
    rcases hi with hs | hn
    case inl => exact .inl hs.next
    case inr =>
      rcases (l.after n).settled_or_offset_lt with hs | hl
      case inl => exact .inl hs.next
      case inr => exact .inr <| Nat.lt_of_le_of_lt hn hl

namespace InBounds

theorem tokenStart_of_endOfInput (h : l.InBounds text) (he : l.next.1 = .ok .endOfInput) :
    l.next.2.tokenStart = text.length := by
  have hb := isBlank_of_next_eq_endOfInput (Prod.ext he rfl)
  rw [next_eq_endOfInput hb, ←h.offset_add]

theorem settled_of_length_le (h : l.InBounds text) (ho : text.length ≤ l.offset) : l.Settled := by
  have hl := h.offset_add
  have hr : l.rest = [] := List.eq_nil_of_length_eq_zero (by omega)
  exact settled_of_blank (by simp [hr])

-- The character that cannot be escaped has not been read.
theorem rest_of_invalidEscape (h : l.InBounds text) (he : l.next.1 = .error e)
    (hf : e.fault = .invalidEscape c) :
    l.next.2.offset = e.position + 1 ∧
      l.next.2.rest = c :: text.toList.drop (e.position + 2) := by
  have ho := behind_of_error he
  simp only [Behind, hf] at ho
  have ⟨rest, hr⟩ := (h.position_of_error he).right.right.left
  rw [hf, LexFault.culprit, List.cons_append, List.cons_append, List.nil_append] at hr
  have hd (n : Nat) : text.toList.drop (e.position + n) = ('\\' :: c :: rest).drop n := by
    rw [hr, List.drop_drop]
  exact ⟨ho, by rw [h.next.isIn, ho, hd, hd]; rfl⟩

end InBounds

-- As long as calls read on, each of them takes a character from the text at least.
theorem settled_after_length (text : String) : ((ofText text).after text.length).Settled := by
  rcases (ofText text).settled_after_or_le_offset text.length with hs | hn
  case inl => exact hs
  case inr => exact (InBounds.ofText.after _).settled_of_length_le hn

-- Whatever a lexer meets, its calls start further and further on and never behind the end of the
-- text. Errors are about the character to blame. A call that gives a token or leaves a quotation
-- reads on. At the end of the text, and at a character that no token starts with, all further calls
-- give the same. So they do at the latest when there were as many calls as characters.
theorem calls_progress_and_settle (text : String) :
    let lexer (i : Nat) : Lexer := (ofText text).after i
    let answer (i : Nat) : Except LexError Token := (lexer i).next.1
    let start (i : Nat) : Nat := (lexer i).tokenStart
    (∀ i, start i ≤ start (i + 1) ∧ start i ≤ text.length) ∧
    (∀ i e, answer i = .error e →
      start (i + 1) ≤ e.position ∧ e.position < text.length ∧
      e.fault.culprit <+: text.toList.drop e.position ∧
      ((∀ c, e.fault ≠ .invalidEscape c) → e.position = start (i + 1))) ∧
    (∀ i t, answer i = .ok t → t ≠ .endOfInput → (lexer i).offset < (lexer (i + 1)).offset) ∧
    (∀ i e, answer i = .error e → e.fault.blocks = false →
      (lexer i).offset < (lexer (i + 1)).offset) ∧
    (∀ i, answer i = .ok .endOfInput →
      ∀ j ≥ i, answer j = .ok .endOfInput ∧ start (j + 1) = text.length) ∧
    (∀ i e, answer i = .error e → e.fault.blocks →
      ∀ j ≥ i, answer j = .error e ∧ start (j + 1) = start (i + 1)) ∧
    (∀ i e, answer i = .error e → e.fault = .unterminated →
      ∀ j > i, answer j = .ok .endOfInput) ∧
    (∀ i e c, answer i = .error e → e.fault = .invalidEscape c →
      (lexer (i + 1)).offset = e.position + 1 ∧
      (lexer (i + 1)).rest = c :: text.toList.drop (e.position + 2)) ∧
    (∀ i ≥ text.length, answer i = answer text.length ∧ start (i + 1) = start (text.length + 1)) := by
  intro lexer answer start
  have hb (i : Nat) : (lexer i).InBounds text := InBounds.ofText.after i
  have hsucc (i : Nat) : lexer (i + 1) = (lexer i).next.2 := after_succ i
  have hstart (i : Nat) : start (i + 1) = (lexer i).next.2.tokenStart :=
    congrArg tokenStart (hsucc i)
  have hsame {i j : Nat} (hs : (lexer i).Settled) (hj : i ≤ j) :
      answer j = answer i ∧ start (j + 1) = start (i + 1) := by
    simp only [hstart, answer, lexer, hs.next_after_of_le hj, and_self]
  refine ⟨fun i => ⟨?forward, ?bounded⟩, fun i e he => ?position, fun i t ht hn => ?token,
    fun i e he hf => ?error, fun i hi j hj => ?ended, fun i e he hf j hj => ?blocked,
    fun i e he hf j hj => ?unterminated, fun i e c he hf => ?escape, fun i hi => ?settled⟩
  case forward      =>
    exact hstart i ▸ Nat.le_trans (hb i).tokenStart_le (lexer i).offset_le_tokenStart_next
  case bounded      => exact Nat.le_trans (hb i).tokenStart_le (hb i).offset_le
  case position     => exact hstart i ▸ (hb i).position_of_error he
  case token        => exact hsucc i ▸ offset_lt_of_token ht hn
  case error        => exact hsucc i ▸ offset_lt_of_error he hf
  case ended        =>
    have ⟨ha, hs⟩ := hsame (settled_of_endOfInput hi) hj
    exact ⟨ha.trans hi, hs.trans <| hstart i ▸ (hb i).tokenStart_of_endOfInput hi⟩
  case blocked      => exact (hsame (settled_of_error he hf) hj).imp_left fun ha => ha.trans he
  case unterminated =>
    have ha : answer (i + 1) = .ok .endOfInput := by
      simp only [answer, hsucc, next_next_of_unterminated he hf]
    exact (hsame (settled_of_endOfInput ha) hj).left.trans ha
  case escape       => exact hsucc i ▸ (hb i).rest_of_invalidEscape he hf
  case settled      => exact hsame (settled_after_length text) hi

-- The quotation is left behind its backslash, and the tilde behind it stops all calls.
theorem calls_behind_invalid_escape :
    let lexer (i : Nat) : Lexer := (ofText "a'\\b~").after i
    (lexer 1).next.1 = .error ⟨.invalidEscape 'b', 2⟩ ∧ (lexer 2).rest = ['b', '~'] ∧
      (lexer 3).next.1 = .error ⟨.loneTilde, 4⟩ ∧
      ∀ j ≥ 3, (lexer j).next.1 = .error ⟨.loneTilde, 4⟩ ∧ (lexer (j + 1)).tokenStart = 4 := by
  intro lexer
  have he : (lexer 1).next.1 = .error ⟨.invalidEscape 'b', 2⟩ := by decide +kernel
  have ht : (lexer 3).next.1 = .error ⟨.loneTilde, 4⟩ := by decide +kernel
  have hs : (lexer 4).tokenStart = 4 := by decide +kernel
  obtain ⟨-, -, -, -, -, hblocked, -, hescape, -⟩ := calls_progress_and_settle "a'\\b~"
  refine ⟨he, (hescape 1 _ _ he rfl).right, ht, fun j hj => ?_⟩
  exact (hblocked 3 _ ht rfl j hj).imp_right fun h => h.trans hs

end Lexer
end TreeQuery
