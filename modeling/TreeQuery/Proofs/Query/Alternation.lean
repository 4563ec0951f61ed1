import TreeQuery.Proofs.Evaluation.Union
import TreeQuery.Proofs.Selector.RoundTrip

namespace TreeQuery

-- The alternatives that a text contributes to a query. A text that cannot be parsed has none.
def accepted (text : String) : List Alternative :=
  match parse text with
  | .ok s    => s.alternatives
  | .error _ => []

theorem accepted_empty : accepted "" = [] := by
  simp [accepted, Selector.parse_empty]

theorem Reading.alternatives_of_outcome (r : Reading) :
    r.alternatives = match r.outcome.1 with | .ok s => s.alternatives | .error _ => [] := by
  match ho : r.outcome.1 with
  | .ok s    => exact (Reading.of_outcome_eq_ok ho).right.symm
  | .error e => exact Reading.alternatives_of_outcome_eq_error ho

-- Between bars, the parts of a text are accepted or dropped as they are alone.
theorem accepted_intercalate {parts : List String} {tss : List (List Token)}
    (h : List.Forall₂ IsSlice parts tss) :
    accepted ("|".intercalate parts) = parts.flatMap accepted := by
  by_cases ht : [.pipe].intercalate tss = []
  case pos =>
    cases h
    case nil       => exact accepted_empty
    case cons _ hs => cases hs <;> simp at ht ⊢
  case neg =>
    have ⟨p, hp, ho⟩ := exists_parser_of_parts ht h
    have ho : p.parse.1 = ((Slice.ofParts 0 parts).foldl Reading.join .start).outcome.1 :=
      (Prod.ext_iff.mp ho).left
    calc accepted ("|".intercalate parts)
      _ = ((Slice.ofParts 0 parts).foldl Reading.join .start).alternatives := by
        rw [Reading.alternatives_of_outcome, ←ho]
        simp only [accepted, parse, hp]
      _ = (Slice.ofParts 0 parts).flatMap Slice.alternatives := by
        rw [Reading.foldl_join rfl]
        rfl
      _ = ((Slice.ofParts 0 parts).map Slice.text).flatMap accepted := by
        rw [List.flatMap_map]
        rfl
      _ = parts.flatMap accepted := by rw [Slice.map_text_ofParts]

-- The texts that can be cut into tokens, whatever the tokens mean.
def Lexable (text : String) : Prop :=
  ∃ ts, tokenize text = .ok ts

namespace Lexable

variable {text text' : String}

theorem iff_isOk : Lexable text ↔ (tokenize text).isOk := by
  cases ht : tokenize text <;> simp [Lexable, ht, Except.isOk, Except.toBool]

instance : Decidable (Lexable text) :=
  decidable_of_iff _ iff_isOk.symm

theorem exists_parts (h : Lexable text) :
    ∃ parts tss, text = "|".intercalate parts ∧ parts ≠ [] ∧ List.Forall₂ IsSlice parts tss := by
  have ⟨_, ht⟩ := h
  have ⟨ts, _, _, hts⟩ := tokenize_eq_ok_iff.mp ht
  have ⟨parts, htext, hp⟩ := exists_parts_of_tokenize (hts ▸ ht)
  refine ⟨parts, _, htext, fun hn => ?_, hp⟩
  have hl := hp.length_eq.trans length_splitOn
  simp [hn] at hl

theorem append_pipe (h : Lexable text) (h' : Lexable text') : Lexable (text ++ "|" ++ text') := by
  have ⟨_, ht⟩ := h
  have ⟨_, ht'⟩ := h'
  have ⟨ts, stop, hs, _⟩ := tokenize_eq_ok_iff.mp ht
  have ⟨ts', stop', hs', _⟩ := tokenize_eq_ok_iff.mp ht'
  have hm := hs'.move (d := stop + 1)
  rw [Nat.zero_add] at hm
  exact ⟨_, tokenize_eq_ok_iff.mpr ⟨_, _, by simpa using hs.append_pipe hm, rfl⟩⟩

theorem accepted_append_pipe (h : Lexable text) (h' : Lexable text') :
    accepted (text ++ "|" ++ text') = accepted text ++ accepted text' := by
  have ⟨parts, tss, ht, hn, hp⟩ := h.exists_parts
  have ⟨parts', tss', ht', hn', hp'⟩ := h'.exists_parts
  have hj : text ++ "|" ++ text' = "|".intercalate (parts ++ parts') := by
    rw [String.intercalate_append_of_ne_nil hn hn', ht, ht']
  rw [hj, TreeQuery.accepted_intercalate (List.rel_append hp hp'), List.flatMap_append, ht, ht',
    TreeQuery.accepted_intercalate hp, TreeQuery.accepted_intercalate hp']

theorem intercalate {texts : List String} (h : ∀ text ∈ texts, Lexable text) :
    Lexable ("|".intercalate texts) ∧
      accepted ("|".intercalate texts) = texts.flatMap accepted := by
  induction texts
  case nil => exact ⟨⟨_, tokenize_eq_ok_iff.mpr ⟨[], _, .nil <| by simp, rfl⟩⟩, accepted_empty⟩
  case cons text texts hi =>
    have ⟨ht, h⟩ := List.forall_mem_cons.mp h
    have ⟨hl, ha⟩ := hi h
    cases texts
    case nil  => simpa using ht
    case cons =>
      rw [String.intercalate_cons_cons, List.flatMap_cons, ←ha]
      exact ⟨ht.append_pipe hl, ht.accepted_append_pipe hl⟩

end Lexable

namespace Tree

variable {t : Tree}

-- A query lists what the accepted alternatives designate, each node where it is first found.
theorem WellFormed.exists_query (hw : t.WellFormed) (text : String) :
    ∃ answer, t.query text = some answer ∧
      answer.found = ((accepted text).flatMap t.designated).eraseDups := by
  match hp : parse text with
  | .ok s    =>
    have ⟨b, hb, hf⟩ := hw.exists_evaluate s
    have ⟨_, ho⟩ := Selector.ofText_of_parse_eq_ok hp
    exact ⟨_, query_of_parse_eq_ok ho hb hp, by simp [accepted, hp, hf]⟩
  | .error e =>
    by_cases hn : text = ""
    case pos => exact ⟨⟨[], []⟩, by simp [query, hn], by simp [accepted, hp]⟩
    case neg => exact ⟨_, query_of_parse_eq_error hn hp, by simp [accepted, hp]⟩

theorem WellFormed.exists_select (hw : t.WellFormed) (text : String) :
    ∃ answer, t.select (some text) = .ok answer ∧ t.query text = some answer ∧
      answer.found = ((accepted text).flatMap t.designated).eraseDups := by
  have ⟨answer, hq, hf⟩ := hw.exists_query text
  exact ⟨answer, by simp [select, hq], hq, hf⟩

-- A bar between two texts joins what they find, and each of them may be anything that can be cut
-- into tokens. So it means the union, however the texts are grouped and in whatever order.
theorem Reachable.query_alternation (h : t.Reachable) :
    (∀ text text', Lexable text → Lexable text' →
      ∃ a a' b, t.query text = some a ∧ t.query text' = some a' ∧
        t.query (text ++ "|" ++ text') = some b ∧
        b.found = a.found ++ a'.found.filter (· ∉ a.found)) ∧
    (∀ texts, (∀ text ∈ texts, Lexable text) →
      ∃ b, t.query ("|".intercalate texts) = some b ∧
        ∀ id, id ∈ b.found ↔ ∃ text ∈ texts, ∃ a, t.query text = some a ∧ id ∈ a.found) := by
  have hq := h.wellFormed.exists_query
  constructor
  case left =>
    intro text text' ht ht'
    have ⟨a, ha, hf⟩   := hq text
    have ⟨a', ha', hf'⟩ := hq text'
    have ⟨b, hb, hf''⟩ := hq (text ++ "|" ++ text')
    refine ⟨a, a', b, ha, ha', hb, ?_⟩
    rw [hf'', ht.accepted_append_pipe ht', List.flatMap_append, eraseDups_append_eq_filter, ←hf,
      ←hf']
  case right =>
    intro texts ht
    have ⟨b, hb, hf⟩ := hq ("|".intercalate texts)
    refine ⟨b, hb, fun id => ?_⟩
    rw [hf, (Lexable.intercalate ht).right, List.flatMap_assoc, List.mem_eraseDups,
      List.mem_flatMap]
    refine exists_congr fun text => and_congr_right fun _ => ?_
    have ⟨a, ha, hf⟩ := hq text
    simp [ha, hf]

theorem query_malformed_alternation :
    let n : Node := ⟨"a", none, none, none, .empty, [], none⟩
    let t := (ofRoot n).attach 0 n
    t.Reachable ∧ Lexable "x|/a" ∧ Lexable "/a/*||/a" ∧
      (t.query "x|/a").map Answer.found = some [0] ∧
      (t.query "/a/*||/a").map Answer.found = some [1, 0] ∧
      (t.query ("x|/a" ++ "|" ++ "/a/*||/a")).map Answer.found = some [0, 1] := by
  intro n t
  have h : t.Reachable := .attach (.ofRoot n) (by decide)
  have ht : Lexable "x|/a" := by decide +kernel
  have ht' : Lexable "/a/*||/a" := by decide +kernel
  have ⟨a, a', b, ha, ha', hb, hf⟩ := h.query_alternation.left _ _ ht ht'
  have hq : (t.query "x|/a").map Answer.found = some [0] := by decide +kernel
  have hq' : (t.query "/a/*||/a").map Answer.found = some [1, 0] := by decide +kernel
  have hfa : a.found = [0] := by simpa [ha] using hq
  have hfa' : a'.found = [1, 0] := by simpa [ha'] using hq'
  refine ⟨h, ht, ht', hq, hq', ?_⟩
  rw [hb, Option.map_some, hf, hfa, hfa']
  rfl

end Tree
end TreeQuery
