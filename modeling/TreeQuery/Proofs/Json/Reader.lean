import TreeQuery.Proofs.Json.Text

-- Which readers read which values, and what they make of them.
namespace TreeQuery.Json

variable {α β γ σ : Type} {c opening close : Char} {cs gap rest rest' : List Char}
variable {v : Value} {isFirst : Bool}

theorem Blanks.skipBlanks_append (h : Blanks gap) : skipBlanks (gap ++ cs) = skipBlanks cs := by
  induction gap
  case nil => rfl
  case cons c gap hi =>
    have ⟨hc, h⟩ := List.forall_mem_cons.mp h
    rw [List.cons_append, skipBlanks, List.dropWhile_cons_of_pos hc]
    exact hi h

theorem skipBlanks_cons (h : isBlank c = false) : skipBlanks (c :: cs) = c :: cs :=
  List.dropWhile_cons_of_neg <| by simp [h]

theorem Blanks.skipBlanks_append_cons (h : Blanks gap) (hc : isBlank c = false) :
    skipBlanks (gap ++ c :: cs) = c :: cs :=
  h.skipBlanks_append.trans <| skipBlanks_cons hc

theorem isBlank_eq_false_of_isDigit (h : isDigit c) : isBlank c = false := by
  apply eq_false_of_ne_true
  intro hb
  simp only [isBlank, Bool.or_eq_true, decide_eq_true_eq] at hb
  rcases hb with ((rfl | rfl) | rfl) | rfl <;> contradiction

namespace Value

-- The first character of a value tells which kind of value it is.
def startsWith (c : Char) : Value → Bool
  | null      => c = 'n'
  | boolean _ => c = 't' || c = 'f'
  | number    => c = '-' || isDigit c
  | text _    => c = '"'
  | array _   => c = '['
  | object _  => c = '{'

theorem isBlank_eq_false_of_startsWith (h : v.startsWith c) : isBlank c = false := by
  cases v <;> simp only [startsWith, Bool.or_eq_true, decide_eq_true_eq] at h
  case boolean => rcases h with rfl | rfl <;> rfl
  case number =>
    rcases h with rfl | h
    · rfl
    · exact isBlank_eq_false_of_isDigit h
  all_goals subst h; rfl

theorem Spelled.exists_start (h : v.Spelled cs) : ∃ c rest, cs = c :: rest ∧ v.startsWith c := by
  cases h
  case null    => exact ⟨_, _, rfl, rfl⟩
  case isTrue  => exact ⟨_, _, rfl, rfl⟩
  case isFalse => exact ⟨_, _, rfl, rfl⟩
  case array   => exact ⟨_, _, rfl, rfl⟩
  case object  => exact ⟨_, _, rfl, rfl⟩
  case text h  => have ⟨_, hcs, _⟩ := h.exists_readText; exact ⟨_, _, hcs, rfl⟩
  case number h =>
    cases h
    case mk sign whole fraction exponent hs hw _ _ _ =>
      have ⟨d, ds, hd⟩ := List.exists_cons_of_ne_nil hw.left
      have hdigit : isDigit d := hw.right d <| hd ▸ .head _
      simp only [List.mem_cons, List.not_mem_nil, or_false] at hs
      rcases hs with rfl | rfl
      · exact ⟨d, _, by rw [hd]; rfl, by simp [startsWith, hdigit]⟩
      · exact ⟨'-', _, rfl, rfl⟩

theorem startsWith_quote : v.startsWith '"' ↔ ∃ s, v = .text s := by
  cases v <;> simp [startsWith, isDigit]

theorem startsWith_n : v.startsWith 'n' ↔ v = .null := by
  cases v <;> simp [startsWith, isDigit]

theorem startsWith_bracket : v.startsWith '[' ↔ ∃ vs, v = .array vs := by
  cases v <;> simp [startsWith, isDigit]

theorem startsWith_brace : v.startsWith '{' ↔ ∃ ms, v = .object ms := by
  cases v <;> simp [startsWith, isDigit]

-- A text, or `null` where there is none.
def nullable : Option String → Value
  | some s => text s
  | none   => null

end Value

-- Something with blanks in front of it.
def Padded (spelled : β → List Char → Prop) (x : β) (cs : List Char) : Prop :=
  ∃ gap cs', Blanks gap ∧ spelled x cs' ∧ cs = gap ++ cs'

-- What stands behind the key of a member.
def BehindKey (v : Value) (cs : List Char) : Prop :=
  ∃ gap cs', Blanks gap ∧ Padded Value.Spelled v cs' ∧ cs = gap ++ ':' :: cs'

-- Off the head of a text, exactly the spelling of something is taken, and what comes out of it is
-- what it means. Nothing comes out of something without a meaning.
structure Reads (read : List Char → Except Fault (α × List Char)) (spelled : β → List Char → Prop)
    (means : β → α → Prop) : Prop where
  eq_ok_iff {b cs} : spelled b cs →
    ∀ rest x rest', read (cs ++ rest) = .ok (x, rest') ↔ means b x ∧ rest' = rest

variable {read : List Char → Except Fault (α × List Char)} {r : Reader α} {x : α}
variable {spelled : β → List Char → Prop} {means means' : β → α → Prop}

theorem Padded.of_spelled {b : β} (h : spelled b cs) : Padded spelled b cs :=
  ⟨[], cs, List.forall_mem_nil _, h, rfl⟩

namespace Reads

theorem congr (h : Reads read spelled means) (hm : ∀ b x, means b x ↔ means' b x) :
    Reads read spelled means' := by
  refine ⟨fun hs rest x rest' => ?_⟩
  rw [h.eq_ok_iff hs, hm]

theorem of_padded (h : Reads read (Padded spelled) means) : Reads read spelled means :=
  ⟨fun hs => h.eq_ok_iff <| .of_spelled hs⟩

theorem fail {f : Fault} (h : ∀ b x, ¬means b x) : Reads (Reader.fail f).read spelled means := by
  refine ⟨fun _ _ _ _ => ?_⟩
  simp [Reader.fail, h]

theorem map (h : Reads read spelled means) (g : α → γ) :
    Reads (fun cs => (read cs).map fun (x, rest) => (g x, rest)) spelled
      fun b y => ∃ x, means b x ∧ y = g x := by
  refine ⟨fun {b cs} hs rest y rest' => ?_⟩
  constructor
  case mp =>
    intro hr
    cases hx : read (cs ++ rest)
    case error => simp [hx, Except.map] at hr
    case ok p =>
      have ⟨hm, hrest⟩ := (h.eq_ok_iff hs _ _ _).mp hx
      simp only [hx, Except.map, Except.ok.injEq, Prod.mk.injEq] at hr
      exact ⟨⟨p.fst, hm, hr.left.symm⟩, hr.right ▸ hrest⟩
  case mpr =>
    rintro ⟨⟨x, hm, rfl⟩, rfl⟩
    simp [(h.eq_ok_iff hs _ _ _).mpr ⟨hm, rfl⟩, Except.map]

theorem afterBlanks {means : Value → α → Prop} (h : Reads read Value.Spelled means) :
    Reads (fun cs => read (skipBlanks cs)) (Padded Value.Spelled) means := by
  refine ⟨fun {v cs} hp rest x rest' => ?_⟩
  have ⟨gap, cs', hg, hs, hcs⟩ := hp
  have ⟨c, tail, hc, hv⟩ := hs.exists_start
  have hb : skipBlanks (cs ++ rest) = cs' ++ rest := by
    rw [hcs, hc, List.append_assoc, List.cons_append,
      hg.skipBlanks_append_cons <| Value.isBlank_eq_false_of_startsWith hv]
  simp only [hb, h.eq_ok_iff hs]

end Reads

-- Goes on behind something that leaves a known rest of the text.
theorem bind_eq_ok_iff {e : Except Fault (α × List Char)} {next : α × List Char → Except Fault γ}
    {p : α → Prop} {y : γ} (h : ∀ x rest', e = .ok (x, rest') ↔ p x ∧ rest' = rest) :
    e.bind next = .ok y ↔ ∃ x, p x ∧ next (x, rest) = .ok y := by
  constructor
  case mp =>
    intro hy
    cases e
    case error => contradiction
    case ok r =>
      have ⟨hp, hrest⟩ := (h _ _).mp rfl
      exact ⟨r.fst, hp, hrest ▸ hy⟩
  case mpr =>
    rintro ⟨x, hp, hy⟩
    rw [(h _ _).mpr ⟨hp, rfl⟩]
    exact hy

theorem read_bind_of_read_eq_ok {next : α → Reader γ} (h : r.read cs = .ok (x, rest)) :
    (r.bind next).read cs = (next x).read rest := by
  simp [Reader.bind, h, bind, Except.bind]

theorem Quoted.readQuoted_append {key : String} (h : Quoted key cs) :
    Reader.readQuoted (cs ++ rest) = .ok (key, rest) := by
  have ⟨body, hcs, hr⟩ := h.exists_readText
  simp [hcs, Reader.readQuoted, hr, Except.map]

theorem Quoted.read_key {key : String} (h : Quoted key cs) :
    Reader.key.read (cs ++ rest) = .ok (key, rest) := by
  have hr : Reader.readQuoted (cs ++ rest) = .ok (key, rest) := h.readQuoted_append
  have ⟨body, hcs, _⟩ := h.exists_readText
  rw [hcs] at hr ⊢
  exact hr

namespace Reads

-- What is read behind a key can depend on the key.
theorem member {next : String → Reader α} (means : String → Value → α → Prop)
    (h : ∀ key, Reads (next key).read BehindKey (means key)) :
    Reads (Reader.key.bind next).read (MemberSpelled Value.Spelled) fun m => means m.1 m.2 := by
  refine ⟨fun hs rest x rest' => ?_⟩
  cases hs
  case mk key v ks gap gap' cs hk hg hg' hv =>
    have hb : BehindKey v (gap ++ ':' :: (gap' ++ cs)) := ⟨_, _, hg, ⟨_, _, hg', hv, rfl⟩, rfl⟩
    rw [← (h key).eq_ok_iff hb rest, ← read_bind_of_read_eq_ok hk.read_key]
    simp

theorem behindKey {means : Value → α → Prop} (h : Reads r.read (Padded Value.Spelled) means) :
    Reads (Reader.colon.bind fun _ => r).read BehindKey means := by
  refine ⟨fun {v cs} hb rest x rest' => ?_⟩
  have ⟨gap, cs', hg, hp, hcs⟩ := hb
  have hc : Reader.colon.read (cs ++ rest) = .ok ((), cs' ++ rest) := by
    have hb : skipBlanks (cs ++ rest) = ':' :: (cs' ++ rest) := by
      rw [hcs, List.append_assoc, List.cons_append, hg.skipBlanks_append_cons (by rfl)]
    simp [Reader.colon, Reader.afterBlanks, hb, Reader.readColon]
  rw [read_bind_of_read_eq_ok hc, h.eq_ok_iff hp]

theorem readQuoted : Reads Reader.readQuoted Value.Spelled fun v s => v = .text s := by
  refine ⟨fun {v cs} hs rest s rest' => ?_⟩
  have ⟨c, tail, hc, hv⟩ := hs.exists_start
  by_cases hq : c = '"'
  case pos =>
    subst hq
    have ⟨s', hs'⟩ := Value.startsWith_quote.mp hv
    subst hs'
    cases hs
    case text h => simp [h.readQuoted_append, eq_comm]
  case neg =>
    have hn : v ≠ .text s := by
      intro he
      simp [he, Value.startsWith, hq] at hv
    simp [hc, Reader.readQuoted, hq, hn]

theorem text : Reads Reader.text.read (Padded Value.Spelled) fun v s => v = .text s :=
  readQuoted.afterBlanks

theorem readNullable :
    Reads Reader.readNullable Value.Spelled fun v o => v = .nullable o := by
  refine ⟨fun {v cs} hs rest o rest' => ?_⟩
  obtain ⟨c, tail, hc, hv⟩ := hs.exists_start
  by_cases hn : c = 'n'
  case pos =>
    subst hn
    cases Value.startsWith_n.mp hv
    cases hs
    cases o <;>
      simp [Reader.readNullable, readWord, Except.map, Value.nullable, eq_comm]
  case neg =>
    have hnull : v ≠ .null := by
      intro he
      simp [he, Value.startsWith, hn] at hv
    have hr : Reader.readNullable (cs ++ rest) = .ok (o, rest') ↔
        (∃ s, v = .text s ∧ o = some s) ∧ rest' = rest := by
      have hq := (readQuoted.map some).eq_ok_iff hs rest o rest'
      rw [hc] at hq ⊢
      simpa [Reader.readNullable, hn] using hq
    rw [hr]
    cases o <;> simp [Value.nullable, hnull]

theorem nullableText :
    Reads Reader.nullableText.read (Padded Value.Spelled) fun v o => v = .nullable o :=
  readNullable.afterBlanks

end Reads

-- Behind an item or a bracket, items begin neither with a blank nor with the closing bracket.
def IsItem (close : Char) (spelled : β → List Char → Prop) : Prop :=
  ∀ {b cs}, spelled b cs → ∃ c tail, cs = c :: tail ∧ isBlank c = false ∧ c ≠ close

theorem nextItem_of_blanks (hb : isBlank close = false) (h : Blanks gap) :
    nextItem close isFirst (gap ++ close :: rest) = .ok (.done rest) := by
  simp [nextItem, h.skipBlanks_append_cons hb]

theorem Items.exists_next {b : β} {bs : List β} (hi : IsItem close spelled) (hc : close ≠ ',')
    (h : Items spelled isFirst (b :: bs) cs) :
    ∃ item others, spelled b item ∧ Items spelled false bs others ∧
      ∀ rest, nextItem close isFirst (cs ++ rest) = .ok (.item (item ++ (others ++ rest))) := by
  cases h
  case first gap item others hg hb hbs =>
    refine ⟨item, others, hb, hbs, fun rest => ?_⟩
    have ⟨d, tail, hitem, hd, hne⟩ := hi hb
    subst hitem
    have hs : skipBlanks (gap ++ d :: tail ++ others ++ rest) = d :: tail ++ (others ++ rest) := by
      simpa using hg.skipBlanks_append_cons hd
    simp only [nextItem, hs, List.cons_append, hne, if_false, if_true]
  case next gap gap' item others hg hg' hb hbs =>
    refine ⟨item, others, hb, hbs, fun rest => ?_⟩
    have ⟨d, tail, hitem, hd, hne⟩ := hi hb
    subst hitem
    have hs : skipBlanks (gap ++ ',' :: gap' ++ d :: tail ++ others ++ rest) =
        ',' :: (gap' ++ d :: (tail ++ (others ++ rest))) := by
      simpa using hg.skipBlanks_append_cons rfl
    have hs' : skipBlanks (gap' ++ d :: (tail ++ (others ++ rest))) =
        d :: (tail ++ (others ++ rest)) := hg'.skipBlanks_append_cons hd
    simp only [nextItem, hs, hs', hc.symm, hne, List.cons_append, if_false, if_true,
      Bool.false_eq_true]

theorem Items.exists_skipBlanks {b : β} {bs : List β} (hi : IsItem close spelled) (hc : close ≠ ',')
    (h : Items spelled isFirst (b :: bs) cs) :
    ∃ c tail, c ≠ close ∧ ∀ rest, skipBlanks (cs ++ rest) = c :: (tail ++ rest) := by
  cases h
  case first gap item others hg hb _ =>
    have ⟨d, tail, hitem, hd, hne⟩ := hi hb
    refine ⟨d, tail ++ others, hne, fun rest => ?_⟩
    simpa [hitem] using hg.skipBlanks_append_cons hd
  case next gap gap' item others hg _ _ _ =>
    refine ⟨',', gap' ++ item ++ others, hc.symm, fun rest => ?_⟩
    simpa using hg.skipBlanks_append_cons rfl

-- The states that the reading of items can go through: each item takes it one step further.
def Steps (step : σ → β → σ → Prop) : σ → List β → σ → Prop
  | s, [],      s' => s' = s
  | s, b :: bs, s' => ∃ t, step s b t ∧ Steps step t bs s'

theorem readItems_of_nextItem_eq_done {item : σ → Reader σ} {s : σ}
    (h : nextItem close isFirst cs = .ok (.done rest)) :
    Reader.readItems close item isFirst s cs = .ok (s, rest) := by
  rw [Reader.readItems]
  split <;> simp_all

theorem readItems_of_nextItem_eq_item {item : σ → Reader σ} {s : σ}
    (h : nextItem close isFirst cs = .ok (.item rest)) :
    Reader.readItems close item isFirst s cs =
      ((item s).read rest).bind fun (s, rest) => Reader.readItems close item false s rest := by
  rw [Reader.readItems]
  split <;> simp_all
  split <;> simp_all [Except.bind]

theorem readItems_eq_ok_iff {item : σ → Reader σ} {step : σ → β → σ → Prop}
    (hr : ∀ s, Reads (item s).read spelled (step s)) (hi : IsItem close spelled)
    (hb : isBlank close = false) (hc : close ≠ ',') {bs : List β} {s s' : σ}
    (h : Items spelled isFirst bs cs) :
    Reader.readItems close item isFirst s (cs ++ close :: rest) = .ok (s', rest') ↔
      Steps step s bs s' ∧ rest' = rest := by
  induction bs generalizing isFirst cs s
  case nil =>
    cases h
    case done hg =>
      rw [readItems_of_nextItem_eq_done <| nextItem_of_blanks hb hg]
      simp [Steps, eq_comm]
  case cons b bs ih =>
    have ⟨head, others, hhead, hothers, hn⟩ := h.exists_next hi hc
    rw [readItems_of_nextItem_eq_item <| hn _, bind_eq_ok_iff <| (hr s).eq_ok_iff hhead _]
    simp only [ih hothers, Steps, ← and_assoc, exists_and_right]

theorem isItem_value : IsItem ']' Value.Spelled := by
  intro v cs h
  have ⟨c, tail, hcs, hv⟩ := h.exists_start
  refine ⟨c, tail, hcs, Value.isBlank_eq_false_of_startsWith hv, ?_⟩
  rintro rfl
  cases v <;> simp [Value.startsWith, isDigit] at hv

theorem isItem_member : IsItem '}' (MemberSpelled Value.Spelled) := by
  intro m cs h
  cases h
  case mk hk _ _ _ =>
    have ⟨body, hks, _⟩ := hk.exists_readText
    exact ⟨'"', _, by rw [hks]; rfl, rfl, by decide⟩

-- Brackets tell a kind of value that holds items apart from all other values.
def Encloses (opening close : Char) (spelled : β → List Char → Prop) (wrap : List β → Value) :
    Prop :=
  ∀ {v cs}, v.Spelled cs →
    (∃ bs body, v = wrap bs ∧ cs = opening :: body ++ [close] ∧ Items spelled true bs body) ∨
    (∀ bs, v ≠ wrap bs) ∧ ∃ c tail, cs = c :: tail ∧ c ≠ opening

theorem encloses_of {wrap : List β → Value}
    (hstart : ∀ {v}, v.startsWith opening ↔ ∃ bs, v = wrap bs)
    (hs : ∀ {bs cs}, (wrap bs).Spelled cs →
      ∃ body, cs = opening :: body ++ [close] ∧ Items spelled true bs body) :
    Encloses opening close spelled wrap := by
  intro v cs h
  have ⟨c, tail, hcs, hv⟩ := h.exists_start
  by_cases hc : c = opening
  case pos =>
    obtain ⟨bs, rfl⟩ := hstart.mp (hc ▸ hv)
    have ⟨body, hbody, hi⟩ := hs h
    exact .inl ⟨bs, body, rfl, hbody, hi⟩
  case neg =>
    refine .inr ⟨?_, c, tail, hcs, hc⟩
    rintro bs rfl
    have ⟨body, hbody, _⟩ := hs h
    exact hc (List.cons.inj <| hcs.symm.trans hbody).left

theorem encloses_array : Encloses '[' ']' Value.Spelled .array := by
  refine encloses_of Value.startsWith_bracket fun h => ?_
  cases h
  case array body hi => exact ⟨body, rfl, hi⟩

theorem encloses_object : Encloses '{' '}' (MemberSpelled Value.Spelled) .object := by
  refine encloses_of Value.startsWith_brace fun h => ?_
  cases h
  case object body hi => exact ⟨body, rfl, hi⟩

variable {item : σ → Reader σ} {step : σ → β → σ → Prop} {wrap : List β → Value}
variable {isTooDeep : Bool} {s : σ}

theorem Reads.readContainer (hr : ∀ s, Reads (item s).read spelled (step s))
    (he : Encloses opening close spelled wrap) (hw : wrap.Injective) (hi : IsItem close spelled)
    (hb : isBlank close = false) (hc : close ≠ ',') :
    Reads (Reader.readContainer opening close isTooDeep item s) Value.Spelled
      fun v s' => isTooDeep = false ∧ ∃ bs, v = wrap bs ∧ Steps step s bs s' := by
  refine ⟨fun hs rest s' rest' => ?_⟩
  rcases he hs with ⟨bs, body, rfl, rfl, hbody⟩ | ⟨hn, c, tail, rfl, hne⟩
  · cases isTooDeep <;>
      simp [Reader.readContainer, readItems_eq_ok_iff hr hi hb hc hbody, hw.eq_iff]
  · simp [Reader.readContainer, hne, hn]

theorem Reads.array {step : σ → Value → σ → Prop}
    (h : ∀ s, Reads (item s).read Value.Spelled (step s)) :
    Reads (Reader.container '[' ']' isTooDeep item s).read (Padded Value.Spelled)
      fun v s' => isTooDeep = false ∧ ∃ vs, v = .array vs ∧ Steps step s vs s' :=
  (readContainer h encloses_array (fun _ _ => Value.array.inj) isItem_value rfl
    (by decide)).afterBlanks

theorem Reads.object {step : σ → String × Value → σ → Prop}
    (h : ∀ s, Reads (item s).read (MemberSpelled Value.Spelled) (step s)) :
    Reads (Reader.container '{' '}' isTooDeep item s).read (Padded Value.Spelled)
      fun v s' => isTooDeep = false ∧ ∃ ms, v = .object ms ∧ Steps step s ms s' :=
  (readContainer h encloses_object (fun _ _ => Value.object.inj) isItem_member rfl
    (by decide)).afterBlanks

end TreeQuery.Json
