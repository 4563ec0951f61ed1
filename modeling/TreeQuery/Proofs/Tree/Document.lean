import TreeQuery.Proofs.Json.Writing
import TreeQuery.Proofs.Spec.Reading
import TreeQuery.Report
import TreeQuery.Tree.Loading

namespace TreeQuery

open Json (Document)

theorem Node.value_nullable {o : Option String} :
    (Node.document.nullable o).value = .nullable o := by
  cases o <;> simp [document.nullable, Json.Value.nullable, Document.value]

namespace Attributes

theorem put_of_not_mem {key value : String} {entries : List (String × String)}
    (h : key ∉ entries.map Prod.fst) : put key value entries = entries ++ [(key, value)] := by
  induction entries
  case nil => rfl
  case cons e entries hi =>
    have ⟨hne, hn⟩ := not_or.mp <| mt List.mem_cons.mpr h
    rw [put, if_neg (Ne.symm hne), hi hn, List.cons_append]

theorem entries_foldl_insert {as : Attributes} {entries : List (String × String)}
    (h : ((as.entries ++ entries).map Prod.fst).Nodup) :
    (entries.foldl (fun as (key, value) => as.insert key value) as).entries =
      as.entries ++ entries := by
  induction entries generalizing as
  case nil => simp
  case cons e entries hi =>
    have hp : (as.insert e.fst e.snd).entries = as.entries ++ [e] := by
      refine put_of_not_mem ?_
      grind
    rw [List.foldl_cons, hi, hp, List.append_assoc, List.singleton_append]
    rwa [hp, List.append_assoc, List.singleton_append]

theorem ofList_entries {as : Attributes} : ofList as.entries = as := by
  have he : (ofList as.entries).entries = as.entries := entries_foldl_insert as.nodup_keys
  cases h : ofList as.entries
  cases as
  simp_all

end Attributes

namespace Spec

open Json

-- An array can give all the fields.
theorem describedBy_array {s : Spec} {vs : List Json.Value}
    (h : List.Forall₂ DescribedBy s.children vs) :
    s.DescribedBy <| .array [.text s.name, .nullable s.kind, .nullable s.variant,
      .nullable s.version, .object <| s.attributes.entries.map fun (key, s) => (key, .text s),
      .array vs] := by
  refine describedBy_iff.mpr ⟨_, .array (Nat.le_refl 6), ?_, ?_⟩
  · intro f v hf
    simp only [Field.all, List.zip_cons_cons, List.zip_nil_right, List.mem_cons, Prod.mk.injEq,
      List.not_mem_nil, or_false] at hf
    rcases hf with ⟨rfl, rfl⟩ | ⟨rfl, rfl⟩ | ⟨rfl, rfl⟩ | ⟨rfl, rfl⟩ | ⟨rfl, rfl⟩ | ⟨rfl, rfl⟩
    · exact .name
    · exact .kind
    · exact .variant
    · exact .version
    · have hm := @Field.Means.attributes DescribedBy s.attributes.entries
      rwa [Attributes.ofList_entries] at hm
    · exact .children h
  · intro f hf
    rw [List.map_fst_zip (by simp [Field.all])] at hf
    exact absurd f.mem_all hf

theorem exists_forall₂ {specs : List Spec}
    (h : ∀ s ∈ specs, ∃ d : Document, s.DescribedBy d.value) :
    ∃ ds : List Document, List.Forall₂ DescribedBy specs (ds.map Document.value) := by
  induction specs
  case nil => exact ⟨[], .nil⟩
  case cons s specs hi =>
    have ⟨⟨d, hd⟩, h⟩ := List.forall_mem_cons.mp h
    have ⟨ds, hds⟩ := hi h
    exact ⟨d :: ds, .cons hd hds⟩

theorem exists_describedBy (s : Spec) : ∃ d : Document, s.DescribedBy d.value := by
  have ⟨ds, hds⟩ := exists_forall₂ fun c (_ : c ∈ s.children) => exists_describedBy c
  refine ⟨.array [.text s.name, Node.document.nullable s.kind, Node.document.nullable s.variant,
    Node.document.nullable s.version,
    .object <| s.attributes.entries.map fun (key, s) => (key, .text s), .array ds], ?_⟩
  simpa [Document.value, Document.values, Document.values_eq_map, Document.members_eq_map,
    Node.value_nullable, Function.comp_def] using describedBy_array hds
termination_by sizeOf s
decreasing_by
  have := List.sizeOf_lt_of_mem ‹_›
  have := s.sizeOf_children_lt
  omega

end Spec

namespace Tree

open Json

-- Each spec can be written down. A document that describes it loads like the spec, in whichever way
-- it is spelled. A faulty node is refused as such, also behind nodes without a name.
theorem ofJson_of_spelledBy :
    (∀ s : Spec, ∃ (v : Json.Value) (text : String), v.SpelledBy text ∧ s.DescribedBy v) ∧
    ∀ (v : Json.Value) (text : String), v.SpelledBy text →
      (∀ s : Spec, s.DescribedBy v → v.depth ≤ 127 → ofJson text = ofSpec s) ∧
      (Spec.HasFaultyNode v → ∃ f, ofJson text = .error (.json f)) := by
  refine ⟨fun s => ?spelling, fun v text h => ⟨fun s hs hd => ?described, fun hf => ?faulty⟩⟩
  case spelling  =>
    have ⟨d, hd⟩ := s.exists_describedBy
    exact ⟨_, _, d.spelledBy_toText .compact, hd⟩
  case described => rw [ofJson, (Spec.ofJson_eq_ok_iff h).mpr ⟨hs, hd⟩]
  case faulty    =>
    cases ho : Spec.ofJson text
    case error f => exact ⟨f, by rw [ofJson, ho]⟩
    case ok s =>
      have ⟨hs, _⟩ := (Spec.ofJson_eq_ok_iff h).mp ho
      exact absurd hf hs.not_hasFaultyNode

theorem ofJson_mixed_and_unknown :
    ofJson "\x7b\"children\" :[[\"b\",null]],\"name\":\"\\u0061\"\x7d" =
        ofSpec ⟨"a", none, none, none, .empty, [⟨"b", none, none, none, .empty, []⟩]⟩ ∧
      ∃ f, ofJson "[\"\",null,null,null,\x7b\x7d,[\x7b\"x\":null\x7d]]" = .error (.json f) := by
  have hnone : Blanks [] := List.forall_mem_nil _
  have hone : Blanks [' '] := by simp [Blanks, Json.isBlank]
  constructor
  case left =>
    have hunit : UnitSpelled 'a'.toNat ['0', '0', '6', '1'] :=
      .cons rfl <| .cons rfl <| .cons rfl <| .cons rfl .nil
    have hpieces : List.Forall₂ CharSpelled "a".toList [['\\', 'u', '0', '0', '6', '1']] :=
      .cons (.unit hunit) .nil
    have ha := Json.Value.Spelled.text <| .mk hpieces
    have hb : Json.Value.Spelled (.text "b") _ := .text <| .of_plain <| by simp
    have hchild := Json.Value.Spelled.array <|
      .first hnone hb <| .next hnone hnone .null <| .done hnone
    have hchildren := Json.Value.Spelled.array <| .first hnone hchild <| .done hnone
    have hkey : Quoted "children" _ := .of_plain <| by simp
    have hkey' : Quoted "name" _ := .of_plain <| by simp
    have hroot := Json.Value.Spelled.object <| .first hnone (.mk hkey hone hnone hchildren) <|
      .next hnone hnone (.mk hkey' hnone hnone ha) <| .done hnone
    refine (ofJson_of_spelledBy.right _ _ ⟨hnone, hroot, hnone, ?text⟩).left _ ?_ (by decide)
    case text => decide +kernel
    have hd : Spec.DescribedBy ⟨"b", none, none, none, .empty, []⟩ (.array [.text "b", .null]) := by
      refine Spec.describedBy_iff.mpr ⟨_, .array (by decide), ?_, ?_⟩
      · intro f v hf
        simp only [Spec.Field.all, List.zip_cons_cons, List.zip_nil_right, List.mem_cons,
          Prod.mk.injEq, List.not_mem_nil, or_false] at hf
        rcases hf with ⟨rfl, rfl⟩ | ⟨rfl, rfl⟩
        · exact .name
        · exact .kind (o := none)
      · intro f hf
        cases f <;> first | rfl | exact absurd (by decide) hf
    refine Spec.describedBy_object
      [(.children, .array [.array [.text "b", .null]]), (.name, .text "a")] (by decide) ?_ ?_
    · intro p hp
      rcases List.mem_pair.mp hp with rfl | rfl
      · exact .children <| .cons hd .nil
      · exact .name
    · intro f hf
      cases f <;> first | rfl | exact absurd (by decide) hf
  case right =>
    have hx : Quoted "x" _ := .of_plain <| by simp
    have hempty : Quoted "" _ := .of_plain <| by simp
    have hfaulty := Json.Value.Spelled.object <|
      .first hnone (.mk hx hnone hnone .null) <| .done hnone
    have hroot := Json.Value.Spelled.array <| .first hnone (.text hempty) <|
      .next hnone hnone .null <| .next hnone hnone .null <| .next hnone hnone .null <|
      .next hnone hnone (.object <| .done hnone) <|
      .next hnone hnone (.array <| .first hnone hfaulty <| .done hnone) <| .done hnone
    refine (ofJson_of_spelledBy.right _ _ ⟨hnone, hroot, hnone, by decide +kernel⟩).right ?_
    have hunknown : Spec.HasFaultyNode (.object [("x", .null)]) :=
      .here <| .unknown (.head _) fun f => by cases f <;> decide
    exact .inArray (by simp [Spec.Field.all]) (List.mem_singleton_self _) hunknown

end Tree
end TreeQuery
