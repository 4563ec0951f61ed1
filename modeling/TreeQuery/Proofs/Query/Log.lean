import TreeQuery.Proofs.Query.Alternation

namespace TreeQuery

namespace Walk

variable {a : Alternative} {w : Walk} {e : Event}

theorem level_ne_warn_of_mem_log (h : e ∈ w.log a) : e.level ≠ .warn := by
  simp only [log, List.mem_append, List.mem_map, List.mem_singleton] at h
  rcases h with ⟨_, _, rfl⟩ | rfl <;> simp [Event.level]

theorem filter_debug_log :
    (w.log a).filter (·.level = .debug) = [.evaluatedAlternative a w.found.length] := by
  simp [log, List.filter_map, Function.comp_def, Event.level]

theorem filter_debug_flatMap_log (ws : List (Alternative × Walk)) :
    (ws.flatMap fun (a, w) => w.log a).filter (·.level = .debug) =
      ws.map fun (a, w) => .evaluatedAlternative a w.found.length := by
  simp only [List.filter_flatMap, filter_debug_log]
  rw [List.map_eq_flatMap]

end Walk

-- The warnings about the parts of a text that cannot be parsed.
def skipped (text : String) (parts : List String) : List Event :=
  (Slice.ofParts 0 parts).filterMap Slice.failure? |>.map (.skippedAlternative text)

theorem level_of_mem_skipped {text : String} {parts : List String} {e : Event}
    (h : e ∈ skipped text parts) : e.level = .warn ∧ e.message = "skipped invalid alternative" := by
  have ⟨_, _, he⟩ := List.mem_map.mp h
  exact he ▸ ⟨rfl, rfl⟩

theorem countP_level_append {log log' : List Event} (h : ∀ e ∈ log, e.level = .warn)
    (h' : ∀ e ∈ log', e.level ≠ .warn) :
    (log ++ log').countP (·.level = .warn) = log.length ∧
      (log ++ log').countP (·.level = .debug) = (log'.filter (·.level = .debug)).length := by
  have hw : log.countP (·.level = .warn) = log.length := by simpa using h
  have hw' : log'.countP (·.level = .warn) = 0 := by simpa using h'
  have hd : log.countP (·.level = .debug) = 0 := by simp +contextual [h]
  rw [List.countP_append, List.countP_append, hw, hw', hd, ←List.countP_eq_length_filter]
  exact ⟨rfl, Nat.zero_add _⟩

-- A slice is either kept as a single alternative or skipped with a single error.
def Slice.IsSettled (s : Slice) : Prop :=
  (∃ a, parse s.text = .ok { alternatives := [a] } ∧ s.alternatives = [a] ∧ s.failure? = none) ∨
  (∃ e e', parse s.text = .error e ∧ s.alternatives = [] ∧ s.failure? = some e')

theorem Slice.isSettled {s : Slice} (h : ∃ us, IsSlice s.text us) : s.IsSettled := by
  match parse_of_isSlice h with
  | .inl ⟨a, hp⟩ => exact .inl ⟨a, hp, alternatives_of_parse_eq_ok hp⟩
  | .inr ⟨e, hp⟩ =>
    have ⟨ha, e', hf⟩ := failure?_of_parse_eq_error hp
    exact .inr ⟨e, e', hp, ha, hf⟩

namespace Tree

variable {t : Tree} {text : String} {answer b : Answer} {s : Selector}

-- The event tells how many nodes the alternative finds on its own, with a new table of visits.
def Counted (t : Tree) (a : Alternative) (e : Event) : Prop :=
  ∃ w, t.walk (.ofTree t) a = some w ∧ e = .evaluatedAlternative a w.found.length

theorem WellFormed.counted (hw : t.WellFormed) (a : Alternative) :
    t.Counted a (.evaluatedAlternative a (t.designated a).length) := by
  have ⟨w, hw, hf⟩ := hw.exists_walk_ofTree a
  exact ⟨w, hw, by rw [hf]⟩

theorem WellFormed.exists_evaluate_log (hw : t.WellFormed) (s : Selector) :
    ∃ b, t.evaluate s = some b ∧ (∀ e ∈ b.log, e.level ≠ .warn) ∧
      List.Forall₂ t.Counted s.alternatives (b.log.filter (·.level = .debug)) := by
  have ⟨ws, hws, hf⟩ := hw.exists_walks s
  have hc := congrArg (List.map fun (a, found) => Event.evaluatedAlternative a found.length) hf
  rw [List.map_map, List.map_map] at hc
  refine ⟨_, by simp only [evaluate, hws]; rfl, ?warn, ?debug⟩
  case warn =>
    intro e he
    obtain ⟨_, _, he⟩ := List.mem_flatMap.mp he
    exact Walk.level_ne_warn_of_mem_log he
  case debug =>
    rw [Walk.filter_debug_flatMap_log]
    refine hc ▸ List.forall₂_map_right_iff.mpr ?_
    exact List.forall₂_same.mpr fun a _ => hw.counted a

-- What is reported about a text that can be parsed: its parts that are skipped, and then the
-- evaluation of the alternatives that are kept.
structure Reports (t : Tree) (text : String) (answer : Answer) (s : Selector) (b : Answer)
    (ts : List Token) (parts : List String) : Prop where
  parse_eq        : parse text = .ok s
  evaluate_eq     : t.evaluate s = some b
  found_eq        : answer.found = b.found
  log_eq          : answer.log = skipped text parts ++ b.log
  sliced          : Sliced text ts parts
  alternatives_eq : s.alternatives = (Slice.ofParts 0 parts).flatMap Slice.alternatives
  settled         : ∀ x ∈ Slice.ofParts 0 parts, x.IsSettled
  warned          : ∀ e ∈ skipped text parts,
    e.level = .warn ∧ e.message = "skipped invalid alternative"
  not_warned      : ∀ e ∈ b.log, e.level ≠ .warn
  counted         : List.Forall₂ t.Counted s.alternatives (b.log.filter (·.level = .debug))
  count_add_count : answer.log.countP (·.level = .warn) + answer.log.countP (·.level = .debug) =
    ts.count .pipe + 1

theorem WellFormed.exists_reports (hw : t.WellFormed) (h : parse text = .ok s) :
    ∃ answer b ts parts, t.query text = some answer ∧ t.Reports text answer s b ts parts := by
  have ⟨ts, parts, p, hs, hl, hp, _, ha, hr⟩ := exists_sliced_of_parse_eq_ok h
  have ⟨b, hb, hq, hc⟩ := hw.exists_evaluate_log s
  have ho : Selector.ofText text = .ok (s, skipped text parts) := by
    rw [Selector.ofText_of_ofLexer hl hp, hr, skipped]
  refine ⟨_, b, ts, parts, query_of_parse_eq_ok ho hb h, ?reports⟩
  case reports =>
    refine {
      parse_eq        := h
      evaluate_eq     := hb
      found_eq        := rfl
      log_eq          := rfl
      sliced          := hs
      alternatives_eq := ha
      settled         := fun x hx => Slice.isSettled <| hs.forall_isSlice x hx
      warned          := fun _ => level_of_mem_skipped
      not_warned      := hq
      counted         := hc
      count_add_count := ?_
    }
    have hk : ∀ e ∈ skipped text parts, e.level = .warn :=
      fun _ he => (level_of_mem_skipped he).left
    have ⟨hw, hd⟩ := countP_level_append hk hq
    rw [hw, hd, ←hc.length_eq, ha, skipped, List.length_map, Nat.add_comm]
    exact hs.length_alternatives_add_failures

-- How a query can go.
inductive Course
  | empty
  | rejected
  | evaluated

-- What is found and reported when a query goes that way.
def Takes (t : Tree) (text : String) (answer : Answer) : Course → Prop
  | .empty     => text = "" ∧ answer.found = [] ∧ answer.log = []
  | .rejected  => ∃ e event, parse text = .error e ∧ answer.found = [] ∧ answer.log = [event] ∧
    event = .invalidSelector text e ∧ event.level = .warn ∧
    event.message = "invalid selector, no nodes selected"
  | .evaluated => ∃ s b ts parts, t.Reports text answer s b ts parts

theorem WellFormed.exists_takes (hw : t.WellFormed) (text : String) :
    ∃ answer c, t.query text = some answer ∧ t.Takes text answer c := by
  match hp : parse text with
  | .ok s    =>
    have ⟨answer, b, ts, parts, hq, hr⟩ := hw.exists_reports hp
    exact ⟨answer, .evaluated, hq, s, b, ts, parts, hr⟩
  | .error e =>
    by_cases hn : text = ""
    case pos => exact ⟨⟨[], []⟩, .empty, by simp [query, hn], hn, rfl, rfl⟩
    case neg =>
      exact ⟨_, .rejected, query_of_parse_eq_error hn hp, e, _, hp, rfl, rfl, rfl, rfl, rfl⟩

-- The way that a query takes can be read off its text and its log.
def courseOf (text : String) (answer : Answer) : Course :=
  match parse text with
  | .ok _    => .evaluated
  | .error _ => if answer.log.isEmpty then .empty else .rejected

theorem Takes.eq_courseOf {c : Course} (h : t.Takes text answer c) : c = courseOf text answer := by
  cases c
  case empty =>
    have ⟨ht, _, hl⟩ := h
    simp [courseOf, ht, Selector.parse_empty, hl]
  case rejected =>
    have ⟨_, _, hp, _, hl, _⟩ := h
    simp [courseOf, hp, hl]
  case evaluated =>
    have ⟨_, _, _, _, hr⟩ := h
    simp [courseOf, hr.parse_eq]

-- No text is refused. A query takes exactly one course: an empty text goes unnoticed, a text that
-- cannot be parsed is reported once, and otherwise each part between the bars is reported once,
-- first the parts that are skipped and then those that are kept.
theorem Reachable.select_takes_course (h : t.Reachable) (text : String) :
    ∃ answer, t.select (some text) = .ok answer ∧ ∃! c, t.Takes text answer c := by
  have ⟨answer, c, hq, hc⟩ := h.wellFormed.exists_takes text
  refine ⟨answer, by simp [select, hq], c, hc, fun _ hc' => ?_⟩
  exact hc'.eq_courseOf.trans hc.eq_courseOf.symm

theorem select_takes_around_failure :
    let n : Node := ⟨"a", none, none, none, .empty, [], none⟩
    let t := (ofRoot n).attach 0 n
    t.Reachable ∧ ∃ answer s b ts parts, t.select (some "/a|x|/a/*") = .ok answer ∧
      t.Reports "/a|x|/a/*" answer s b ts parts ∧ answer.found = [0, 1] ∧ ts.count .pipe = 2 ∧
      answer.log.countP (·.level = .warn) = 1 ∧ answer.log.countP (·.level = .debug) = 2 := by
  intro n t
  have h : t.Reachable := .attach (.ofRoot n) (by decide)
  have ⟨answer, hs, c, hc, _⟩ := h.select_takes_course "/a|x|/a/*"
  have hq : (t.select (some "/a|x|/a/*")).toOption.map (fun answer =>
      (answer.found, answer.log.countP (·.level = .warn))) = some ([0, 1], 1) := by
    decide +kernel
  rw [hs] at hq
  have ⟨hf, hw⟩ := Prod.mk.inj (Option.some.inj hq)
  have ht : tokenize "/a|x|/a/*" = .ok [.slash, .identifier "a", .pipe, .identifier "x", .pipe,
      .slash, .identifier "a", .slash, .star, .endOfInput] := by
    decide +kernel
  cases c
  case empty =>
    have ⟨he, _⟩ := hc
    exact absurd he (by decide)
  case rejected =>
    have ⟨_, _, _, he, _⟩ := hc
    exact absurd (hf.symm.trans he) (by decide)
  case evaluated =>
    have ⟨s, b, ts, parts, hr⟩ := hc
    have hp : ts.count .pipe = 2 := by
      have hts := hr.sliced.tokenize_eq.symm.trans ht
      have hc := congrArg (List.count Token.pipe) (Except.ok.inj hts)
      rw [List.count_append] at hc
      exact hc
    refine ⟨h, answer, s, b, ts, parts, hs, hr, hf, hp, hw, ?_⟩
    have hc := hr.count_add_count
    rw [hw, hp] at hc
    omega

end Tree
end TreeQuery
