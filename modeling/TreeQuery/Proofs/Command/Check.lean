import TreeQuery.Command.Check
import TreeQuery.Proofs.Json.Unambiguous
import TreeQuery.Proofs.Json.Writing
import TreeQuery.Proofs.Query.Safety
import TreeQuery.Proofs.Tree.Document
import TreeQuery.Proofs.Tree.Loading

namespace TreeQuery

open Json (Document)

-- The record of a node, with its fields and the attributes among them in whichever order.
inductive Node.IsRecord (n : Node) (path : String) : Json.Value → Prop
  | mk {attributes ms : List (String × Json.Value)} :
    attributes.Perm (n.attributes.entries.map fun (key, value) => (key, .text value)) →
    ms.Perm [
      ("path", .text path),
      ("name", .text n.name),
      ("type", .nullable n.kind),
      ("variant", .nullable n.variant),
      ("version", .nullable n.version),
      ("attributes", .object attributes)] →
    IsRecord n path (.object ms)

theorem Node.isRecord_document (n : Node) (path : String) :
    n.IsRecord path (n.document path).value := by
  have ⟨attributes, ha, hp⟩ :=
    Document.exists_value_record (n.attributes.entries.map fun (key, value) => (key, .text value))
  have ⟨ms, hm, hf⟩ := Document.exists_value_record [
    ("path", .text path),
    ("name", .text n.name),
    ("type", document.nullable n.kind),
    ("variant", document.nullable n.variant),
    ("version", document.nullable n.version),
    ("attributes", n.attributes.document)]
  rw [document, hm]
  have hp : attributes.Perm (n.attributes.entries.map fun (key, value) => (key, .text value)) := by
    rwa [List.map_map] at hp
  refine .mk hp ?_
  simpa [value_nullable, Attributes.document, ha, Document.value] using hf

theorem Node.document_eq (n : Node) (path : String) : n.document path = .object [
    ("attributes", n.attributes.document),
    ("name", .text n.name),
    ("path", .text path),
    ("type", document.nullable n.kind),
    ("variant", document.nullable n.variant),
    ("version", document.nullable n.version)] := by
  rw [document, ←Document.record_of_pairwise (by simp)]
  refine Document.record_eq_of_perm ?_ (by simp)
  exact (List.perm_append_singleton _ [_, _, _, _, _]).trans <| .cons _ <| .swap ..

namespace Tree

variable {t : Tree} {ids : List Nat}

-- The text is a JSON array with one record for each of the nodes, in their order. It can be read in
-- no other way.
def IsReport (t : Tree) (ids : List Nat) (text : String) : Prop :=
  ∃ vs, (∀ v : Json.Value, v.SpelledBy text ↔ v = .array vs) ∧
    List.Forall₂ (fun id v => ∃ n, t.get? id = some n ∧ n.IsRecord (t.pathOf id) v) ids vs

theorem exists_isReport (hb : ∀ id ∈ ids, id < t.size) (l : Json.Layout) :
    ∃ d, t.report ids = some d ∧ t.IsReport ids (d.toText l) := by
  have ⟨records, hr, hm⟩ := exists_report hb
  refine ⟨.array records, hr, records.map Document.value, ?spelled, ?records⟩
  case spelled =>
    have hs := (Document.array records).spelledBy_toText l
    rw [Document.value, Document.values_eq_map] at hs
    exact fun _ => hs.iff_eq
  case records =>
    rw [List.forall₂_map_right_iff]
    refine hm.imp fun id d hd => ?_
    have ⟨n, hn, hd⟩ := Option.map_eq_some_iff.mp hd
    exact ⟨n, hn, hd ▸ n.isRecord_document _⟩

theorem wellFormed_of_ofJson_eq_ok {text : String} (h : ofJson text = .ok t) : t.WellFormed := by
  unfold ofJson at h
  split at h
  case h_1 => cases h
  case h_2 =>
    have ⟨hg, _⟩ := of_ofSpec_eq_ok h
    exact hg.reachable.wellFormed

end Tree

section

variable {o : CheckOptions} {s : Selector} {e : SyntaxError} {text : String} {t : Tree}

theorem check_of_parse_eq_error (h : parse o.selector = .error e) :
    check o = .error (.selector e) := by
  simp only [check, Selector.ofText_of_parse_eq_error h]
  rfl

theorem check_of_syntaxOnly (h : parse o.selector = .ok s) (ho : o.syntaxOnly = true) :
    check o = .ok (.validSyntax s.text) := by
  have ⟨_, ht⟩ := Selector.ofText_of_parse_eq_ok h
  simp only [check, ht, ho]
  rfl

theorem check_of_loadInput_eq_error {e : CommandError} (h : parse o.selector = .ok s)
    (ho : o.syntaxOnly = false) (hl : loadInput o.input = .error e) : check o = .error e := by
  have ⟨_, ht⟩ := Selector.ofText_of_parse_eq_ok h
  simp only [check, ht, ho, hl]
  rfl

theorem check_of_loadInput_eq_ok {answer : Answer} {d : Document} (h : parse o.selector = .ok s)
    (ho : o.syntaxOnly = false) (hl : loadInput o.input = .ok t) (ha : t.evaluate s = some answer)
    (hr : t.report answer.found = some d) : check o = .ok (.success <| d.toText o.layout) := by
  have ⟨_, ht⟩ := Selector.ofText_of_parse_eq_ok h
  simp only [check, ht, ho, hl]
  simp [Except.mapError, ha, hr, bind, Except.bind]
  rfl

-- Of a selector, nothing but what it is parsed to matters.
theorem check_congr (h : parse o.selector = .ok s) (h' : parse text = .ok s) :
    check { o with selector := text } = check o := by
  have ⟨_, ht⟩ := Selector.ofText_of_parse_eq_ok h
  have ⟨_, ht'⟩ := Selector.ofText_of_parse_eq_ok h'
  simp only [check, ht, ht']
  rfl

theorem loadInput_of_ofJson_eq_ok (hi : o.input = some text) (ht : Tree.ofJson text = .ok t) :
    loadInput o.input = .ok t := by
  rw [hi, loadInput, ht]
  rfl

theorem loadInput_of_ofJson_eq_error {e : LoadError} (hi : o.input = some text)
    (ht : Tree.ofJson text = .error e) : loadInput o.input = .error (.load e) := by
  rw [hi, loadInput, ht]
  rfl

theorem check_of_found {ids : List Nat} {d : Document} (h : parse o.selector = .ok s)
    (ho : o.syntaxOnly = false) (hi : o.input = some text) (ht : Tree.ofJson text = .ok t)
    (hf : (t.evaluate s).map Answer.found = some ids) (hr : t.report ids = some d) :
    check o = .ok (.success <| d.toText o.layout) := by
  obtain ⟨answer, ha, rfl⟩ := Option.map_eq_some_iff.mp hf
  exact check_of_loadInput_eq_ok h ho (loadInput_of_ofJson_eq_ok hi ht) ha hr

theorem check_of_ofJson_eq_ok (h : parse o.selector = .ok s) (ho : o.syntaxOnly = false)
    (hi : o.input = some text) (ht : Tree.ofJson text = .ok t) :
    ∃ answer json, t.query o.selector = some answer ∧ check o = .ok (.success json) ∧
      t.IsReport answer.found json := by
  have hw := Tree.wellFormed_of_ofJson_eq_ok ht
  have ⟨answer, ha, hf⟩ := hw.exists_evaluate s
  have hb : ∀ id ∈ answer.found, id < t.size := hf ▸ hw.lt_size_of_mem_eraseDups
  have ⟨d, hr, hd⟩ := Tree.exists_isReport hb o.layout
  have ⟨events, he⟩ := Selector.ofText_of_parse_eq_ok h
  have hq := Tree.query_of_parse_eq_ok he ha h
  have hl := loadInput_of_ofJson_eq_ok hi ht
  exact ⟨_, _, hq, check_of_loadInput_eq_ok h ho hl ha hr, hd⟩

end

-- A selector that cannot be parsed is refused before anything else is looked at, and the tree is
-- not looked at if there is nothing to run. Otherwise the nodes that are reported are those that a
-- query finds. The canonical text of a selector stands for the selector in all of this.
theorem check_agrees_with_query (o : CheckOptions) :
    (∀ e, Selector.ofText o.selector = .error e → check o = .error (.selector e)) ∧
    ∀ s events, Selector.ofText o.selector = .ok (s, events) →
      (check { o with selector := s.text } = check o) ∧
      (o.syntaxOnly = true → check o = .ok (.validSyntax s.text)) ∧
      (o.syntaxOnly = false →
        (o.input = none → check o = .error .noInput) ∧
        ∀ text, o.input = some text →
          (∀ e, Tree.ofJson text = .error e → check o = .error (.load e)) ∧
          ∀ t, Tree.ofJson text = .ok t →
            ∃ answer json, t.query o.selector = some answer ∧ check o = .ok (.success json) ∧
              t.IsReport answer.found json) := by
  cases hp : parse o.selector
  case error e =>
    rw [Selector.ofText_of_parse_eq_error hp]
    refine ⟨?_, nofun⟩
    intro e' he
    exact Except.error.inj he ▸ check_of_parse_eq_error hp
  case ok s    =>
    have ⟨events, ht⟩ := Selector.ofText_of_parse_eq_ok hp
    rw [ht]
    refine ⟨nofun, ?_⟩
    intro s' _ he
    cases he
    refine ⟨?canonical, check_of_syntaxOnly hp, fun ho => ⟨?noInput, ?input⟩⟩
    case canonical =>
      have hw := Selector.wellFormed_of_parse_eq_ok hp
      have ⟨_, hl, hs, _⟩ := hw.exists_parser
      exact check_congr hp <| by simp only [parse, hl, hs]
    case noInput =>
      intro hi
      exact check_of_loadInput_eq_error hp ho <| by rw [hi, loadInput]
    case input =>
      intro text hi
      refine ⟨fun e hl => ?_, fun _ => check_of_ofJson_eq_ok hp ho hi⟩
      exact check_of_loadInput_eq_error hp ho <| loadInput_of_ofJson_eq_error hi hl

-- The node below the root is found first, and the alternative without a root is dropped.
theorem check_reports_in_order :
    let text := "[\"a\",null,null,null,\x7b\"l\":\"2\",\"k\":\"1\"\x7d,[[\"b\"]]]"
    let json := "[\x7b\"attributes\":\x7b\x7d,\"name\":\"b\",\"path\":\"/a/b\"," ++
      "\"type\":null,\"variant\":null,\"version\":null\x7d," ++
      "\x7b\"attributes\":\x7b\"k\":\"1\",\"l\":\"2\"\x7d,\"name\":\"a\",\"path\":\"/a\"," ++
      "\"type\":null,\"variant\":null,\"version\":null\x7d]"
    let o : CheckOptions := ⟨"/a/b | b | /*", some text, .compact, false⟩
    ∃ t answer, Tree.ofJson text = .ok t ∧ t.query o.selector = some answer ∧
      answer.found = [1, 0] ∧ check o = .ok (.success json) ∧ t.IsReport answer.found json := by
  intro text json o
  let s : Selector := ⟨[⟨.root, ⟨.named "a", none⟩, [⟨.named "b", none⟩]⟩,
    ⟨.root, ⟨.wildcard, none⟩, []⟩]⟩
  let n₀ : Node := ⟨"a", none, none, none, ⟨[("l", "2"), ("k", "1")], by decide⟩, [1], none⟩
  let n₁ : Node := ⟨"b", none, none, none, .empty, [], some 0⟩
  have h₀ : n₀.attributes.document = .object [("k", .text "1"), ("l", .text "2")] :=
    (Document.record_eq_of_perm (.swap ..) (by simp)).trans <| Document.record_of_pairwise (by simp)
  have h₁ : n₁.attributes.document = .object [] := Document.record_of_pairwise .nil
  have hw : (Document.array [n₁.document "/a/b", n₀.document "/a"]).toText o.layout = json := by
    rw [Node.document_eq, Node.document_eq, h₀, h₁]
    decide +kernel
  have hp : parse o.selector = .ok s := by decide +kernel
  have hn : (Tree.ofJson text).toOption.map (fun t => (t.get? 0, t.get? 1)) =
      some (some n₀, some n₁) := by
    decide +kernel
  have ha : (Tree.ofJson text).toOption.map (fun t => (t.pathOf 0, t.pathOf 1)) =
      some ("/a", "/a/b") := by
    decide +kernel
  have hf : ((Tree.ofJson text).toOption.bind (·.evaluate s)).map Answer.found =
      some [1, 0] := by
    decide +kernel
  obtain ⟨events, hs⟩ := Selector.ofText_of_parse_eq_ok hp
  cases ht : Tree.ofJson text
  case error => simp [ht, Except.toOption] at hn
  case ok t  =>
    simp only [ht, Except.toOption, Option.map_some, Option.bind_some, Option.some.injEq,
      Prod.mk.injEq] at hn ha hf
    have hd : t.report [1, 0] = some (.array [n₁.document "/a/b", n₀.document "/a"]) := by
      simp [Tree.report, hn, ha]
    have hj : check o = .ok (.success json) := hw ▸ check_of_found hp rfl rfl ht hf hd
    have h := check_agrees_with_query o
    obtain ⟨answer, _, hq, hc, hr⟩ :=
      (h.right _ _ hs).right.right rfl |>.right _ rfl |>.right t ht
    cases hc.symm.trans hj
    have ha : answer.found = [1, 0] := by simpa [hq, hf] using Tree.found_query (t := t) hp
    exact ⟨t, answer, rfl, hq, ha, hj, hr⟩

end TreeQuery
