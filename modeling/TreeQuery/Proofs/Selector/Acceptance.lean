import TreeQuery.Proofs.Selector.Slices
import TreeQuery.Proofs.Selector.WellFormed

namespace TreeQuery

namespace Token

-- Behind these tokens stands a key or a value.
def opensText : Token → Bool
  | openBrace | comma | equals => true
  | _                          => false

inductive StandsFor (text : String) : Token → Prop
  | identifier : StandsFor text (.identifier text)
  | quoted     : StandsFor text (.quoted text)

end Token

-- The tokens differ at most in the quotes around keys and values.
inductive Requoted : List Token → List Token → Prop
  | nil  : Requoted [] []
  | cons {t ts us} : Requoted ts us → Requoted (t :: ts) (t :: us)
  | text {t u v text ts us} :
    t.opensText → u.StandsFor text → v.StandsFor text → Requoted ts us →
    Requoted (t :: u :: ts) (t :: v :: us)

theorem Stage.shift?_standsFor {stage stage' : Stage} {t u v : Token} {text : String}
    (hs : stage.shift? t = some stage') (ht : t.opensText) (hu : u.StandsFor text)
    (hv : v.StandsFor text) (hu' : u.Spellable) (hv' : v.Spellable) :
    stage'.shift? u = stage'.shift? v := by
  cases t <;> first | contradiction | cases stage <;> cases hs
  all_goals cases hu <;> cases hv <;> try rfl
  case equals.key.refl.identifier.quoted => simp [shift?, Value.ofToken?, hu'.ne_star]
  case equals.key.refl.quoted.identifier => simp [shift?, Value.ofToken?, hv'.ne_star]

namespace Requoted

variable {ts us : List Token}

theorem ne_nil (h : Requoted ts us) (hn : ts ≠ []) : us ≠ [] := by
  cases h <;> simp_all

theorem pipe_not_mem (h : Requoted ts us) (hp : .pipe ∉ ts) : .pipe ∉ us := by
  induction h
  case nil        => exact hp
  case cons hi    => simp_all
  case text hv _ hi => cases hv <;> simp_all

theorem run_eq (h : Requoted ts us) (ht : ∀ t ∈ ts, t.Spellable) (hu : ∀ u ∈ us, u.Spellable)
    (stage : Stage) : ts.foldlM Stage.shift? stage = us.foldlM Stage.shift? stage := by
  induction h generalizing stage
  case nil => rfl
  case cons hi =>
    have hi := hi (fun t h => ht t <| .tail _ h) (fun u h => hu u <| .tail _ h)
    simp only [List.foldlM_cons, hi]
  case text t u v _ _ _ ho hd hd' _ hi =>
    have ⟨_, hut, ht⟩ := List.forall_mem_cons.mp ht |>.imp_right List.forall_mem_cons.mp
    have ⟨_, hvt, hu⟩ := List.forall_mem_cons.mp hu |>.imp_right List.forall_mem_cons.mp
    simp only [List.foldlM_cons, hi ht hu]
    match hs : stage.shift? t with
    | none        => rfl
    | some stage' =>
      have he := Stage.shift?_standsFor hs ho hd hd' hut hvt
      simp only [Option.bind_eq_bind, Option.bind_some, he]

theorem derivedFrom_iff {a : Alternative} (h : Requoted ts us) (ht : ∀ t ∈ ts, t.Spellable)
    (hu : ∀ u ∈ us, u.Spellable) : a.DerivedFrom ts ↔ a.DerivedFrom us := by
  rw [Alternative.derivedFrom_iff, Alternative.derivedFrom_iff, h.run_eq ht hu]

end Requoted

section

variable {text text' : String} {ts : List Token}

-- A text without bars is read as a single slice.
theorem exists_parse_eq_readSlice (h : tokenize text = .ok (ts ++ [.endOfInput])) (ht : ts ≠ [])
    (hb : .pipe ∉ ts) :
    ∃ us stop, ts = us.map Prod.fst ∧
      parse text = (readSlice us .endOfInput stop).map fun a => { alternatives := [a] } := by
  have ⟨us, stop, hs, hu⟩ := tokenize_eq_ok_append_iff.mp h
  refine ⟨us, stop, hu, parse_eq_readSlice hs ?nonempty ?bars⟩
  case nonempty =>
    intro hn
    exact ht <| hu.trans <| hn ▸ List.map_nil
  case bars =>
    intro t hm hp
    exact hb <| hu ▸ hp ▸ List.mem_map_of_mem hm

theorem parse_eq_ok_iff {s : Selector} (h : tokenize text = .ok (ts ++ [.endOfInput]))
    (ht : ts ≠ []) (hb : .pipe ∉ ts) :
    (parse text = .ok s) ↔ ∃ a : Alternative, a.DerivedFrom ts ∧ s = { alternatives := [a] } := by
  have ⟨us, stop, hu, hp⟩ := exists_parse_eq_readSlice h ht hb
  have hr {a} : (readSlice us .endOfInput stop = .ok a) ↔ a.DerivedFrom ts :=
    hu ▸ readSlice_eq_ok_iff
  simp only [←hr, hp]
  cases readSlice us .endOfInput stop <;> simp [Except.map, eq_comm]

theorem exists_error_of_not_derivedFrom (h : tokenize text = .ok (ts ++ [.endOfInput]))
    (ht : ts ≠ []) (hb : .pipe ∉ ts) (hd : ∀ a : Alternative, ¬a.DerivedFrom ts) :
    ∃ e, parse text = .error e ∧ ∀ l, e ≠ .lex l := by
  have ⟨us, stop, hu, hp⟩ := exists_parse_eq_readSlice h ht hb
  match hr : readSlice us .endOfInput stop with
  | .ok a    => exact absurd (hu ▸ readSlice_eq_ok_iff.mp hr) (hd a)
  | .error e => exact ⟨e, by simp [hp, hr, Except.map], ne_lex_of_readSlice hr⟩

theorem unplaced_parse_eq (h : tokenize text = .ok (ts ++ [.endOfInput])) (ht : ts ≠ [])
    (hb : .pipe ∉ ts) (h' : tokenize text' = tokenize text) :
    (parse text').mapError SyntaxError.unplaced = (parse text).mapError SyntaxError.unplaced := by
  have ⟨us, stop, hu, hp⟩    := exists_parse_eq_readSlice h ht hb
  have ⟨us', stop', hu', hp'⟩ := exists_parse_eq_readSlice (h' ▸ h) ht hb
  have hr : (readSlice us' .endOfInput stop').mapError SyntaxError.unplaced =
      (readSlice us .endOfInput stop).mapError SyntaxError.unplaced :=
    unplaced_readSlice <| hu'.symm.trans hu
  rw [hp, hp', mapError_map, mapError_map, hr]

end

-- Texts of a single alternative are accepted exactly if the grammar derives their tokens, and the
-- result is what the derivation stands for. Blanks change nothing but the places of errors, and
-- quotes around keys and values change nothing in what is accepted.
theorem parse_single_iff_derivedFrom {text : String} {ts : List Token}
    (h : tokenize text = .ok (ts ++ [.endOfInput])) (ht : ts ≠ []) (hb : .pipe ∉ ts) :
    (∀ a : Alternative, (parse text = .ok { alternatives := [a] }) ↔ a.DerivedFrom ts) ∧
    ((∀ a : Alternative, ¬a.DerivedFrom ts) → ∃ e, parse text = .error e ∧ ∀ l, e ≠ .lex l) ∧
    (∀ text', tokenize text' = tokenize text →
      (parse text').mapError SyntaxError.unplaced = (parse text).mapError SyntaxError.unplaced) ∧
    (∀ text' ts', tokenize text' = .ok (ts' ++ [.endOfInput]) → Requoted ts ts' →
      ∀ s, (parse text' = .ok s) ↔ parse text = .ok s) := by
  refine ⟨fun a => ?derived, exists_error_of_not_derivedFrom h ht hb, ?unplaced, ?requoted⟩
  case derived  => simp [parse_eq_ok_iff h ht hb]
  case unplaced => exact fun _ => unplaced_parse_eq h ht hb
  case requoted =>
    intro text' ts' h' hr s
    have hd {a : Alternative} : a.DerivedFrom ts ↔ a.DerivedFrom ts' :=
      hr.derivedFrom_iff (spellable_of_tokenize h) (spellable_of_tokenize h')
    simp only [parse_eq_ok_iff h ht hb, parse_eq_ok_iff h' (hr.ne_nil ht) (hr.pipe_not_mem hb), hd]

theorem parse_single_filtered :
    let ts : List Token :=
      [.slash, .identifier "a", .openBrace, .identifier "b", .equals, .quoted "c", .closeBrace]
    let a : Alternative := ⟨.root, ⟨.named "a", some ⟨[⟨"b", .exactly "c"⟩]⟩⟩, []⟩
    tokenize "/a\x7bb='c'\x7d" = .ok (ts ++ [.endOfInput]) ∧
      parse "/a\x7bb='c'\x7d" = .ok { alternatives := [a] } ∧
      parse "/a \x7b 'b' = c \x7d" = .ok { alternatives := [a] } := by
  intro ts a
  have h : tokenize "/a\x7bb='c'\x7d" = .ok (ts ++ [.endOfInput]) := by decide +kernel
  have ⟨hd, _, _, hq⟩ := parse_single_iff_derivedFrom h (by decide) (by decide)
  have hc : Condition.DerivedFrom ⟨"b", .exactly "c"⟩ [.identifier "b", .equals, .quoted "c"] :=
    .mk (.identifier _) (.quoted (by decide))
  have ha : a.DerivedFrom ts := .root (.filtered (.named _) (.mk <| .one hc)) .nil
  have hr : Requoted ts [.slash, .identifier "a", .openBrace, .quoted "b", .equals, .identifier "c",
      .closeBrace] :=
    .cons <| .cons <| .text rfl .identifier .quoted <| .text rfl .quoted .identifier <| .cons .nil
  have hp := hd a |>.mpr ha
  exact ⟨h, hp, hq _ _ (by decide +kernel) hr _ |>.mpr hp⟩

end TreeQuery
