import TreeQuery.Proofs.Query.Alternation
import TreeQuery.Proofs.Tree.Generation
import TreeQuery.Proofs.Tree.Path

namespace TreeQuery

theorem flatMap_filter {α : Type} (p : Nat → Bool) (f : Nat → List α) (ids : List Nat) :
    (ids.filter p).flatMap f = ids.flatMap fun id => if p id then f id else [] := by
  induction ids
  case nil => rfl
  case cons id ids hi => cases hp : p id <;> simp [hp, hi]

theorem eraseDups_eq_self {ids : List Nat} (h : ids.Nodup) : ids.eraseDups = ids := by
  induction ids
  case nil => rfl
  case cons id ids hi =>
    have ⟨hm, hn⟩ := List.nodup_cons.mp h
    have hf : ids.filter (fun j => !j == id) = ids :=
      List.filter_eq_self.mpr fun j hj => by simpa using ne_of_mem_of_not_mem hj hm
    rw [List.eraseDups_cons, hf, hi hn]

def namedPath (names : List String) : List Segment :=
  names.map fun name => ⟨.named name, none⟩

-- The alternative that goes down from the root by names only.
def Alternative.byNames (root : String) (names : List String) : Alternative :=
  ⟨.root, ⟨.named root, none⟩, namedPath names⟩

namespace Alternative

variable {root root' : String} {names names' : List String}

theorem text_byNames :
    (byNames root names).text = String.join ((root :: names).map ("/" ++ ·)) := by
  have hs {name : String} : ("/" ++ name).toList = '/' :: name.toList := String.toList_append
  rw [text, render, ←String.toList_inj, String.toList_ofList, String.toList_join]
  simp [byNames, namedPath, tokens, Anchor.tokens, Segment.tokens, Step.token, Token.spelling,
    List.flatMap_map, List.flatMap_assoc, hs]

theorem wellFormed_byNames (h : ∀ name ∈ root :: names, isWord name.toList) :
    (byNames root names).WellFormed := by
  have ⟨hr, hn⟩ := List.forall_mem_cons.mp h
  refine ⟨⟨hr, nofun⟩, fun s hs => ?_⟩
  have ⟨name, hm, hs⟩ := List.mem_map.mp hs
  exact hs ▸ ⟨hn name hm, nofun⟩

theorem accepted_text_byNames (h : ∀ name ∈ root :: names, isWord name.toList) :
    accepted (byNames root names).text = [byNames root names] := by
  simp [accepted, (wellFormed_byNames h).parse_text]

theorem text_byNames_inj (h : ∀ name ∈ root :: names, isWord name.toList)
    (h' : ∀ name ∈ root' :: names', isWord name.toList) :
    (byNames root names).text = (byNames root' names').text ↔
      root :: names = root' :: names' := by
  constructor <;> intro he
  case mp =>
    have hb := congrArg accepted he
    rw [accepted_text_byNames h, accepted_text_byNames h', List.singleton_inj] at hb
    simp only [byNames, namedPath, mk.injEq, Segment.mk.injEq, Step.named.injEq] at hb
    have hi : Function.Injective fun name => Segment.mk (.named name) none := by
      intro _ _ he
      simpa using he
    rw [hb.right.left.left, List.map_injective_iff.mpr hi hb.right.right]
  case mpr => cases he; rfl

end Alternative

namespace Tree

open Relation (ReflTransGen)

variable {t : Tree} {list : Listing} {id j : Nat} {names : List String}

theorem forall_mem_namesDown {p : String → Prop} (h : ∀ n ∈ t.nodes, p n.name) :
    ∀ name ∈ t.namesDown id, p name := by
  simp only [namesDown, List.mem_reverse]
  fun_induction t.namesUp id
  case case1 => simp
  case case2 hn _ => simpa using h _ <| Array.mem_of_getElem? hn
  case case3 hn q _ hi =>
    refine List.forall_mem_cons.mpr ⟨h _ <| Array.mem_of_getElem? hn, ?_⟩
    split
    case isTrue hq => exact hi hq
    case isFalse   => simp

namespace WellFormed

theorem isPrefix_namesDown (hw : t.WellFormed) (h : j ∈ t.preorder id) :
    t.namesDown id <+: t.namesDown j := by
  rw [hw.mem_preorder_iff] at h
  induction h using ReflTransGen.head_induction_on
  case refl => exact List.prefix_rfl
  case head hu _ hi =>
    have ⟨_, _, hn⟩ := hw.namesDown_of_up hu
    exact hi.trans <| hn ▸ List.prefix_append ..

-- A node below a child can have further names than the node itself only if the first of them is the
-- name of the child.
theorem hasName_of_mem_below (hw : t.WellFormed) {c : Nat} (hc : c ∈ t.children id)
    (hj : j ∈ t.preorder c) (h : t.namesDown j = t.namesDown id ++ names) :
    ∃ name rest, names = name :: rest ∧ t.hasName name c := by
  have ⟨n, hn, hd⟩ := hw.namesDown_of_up <| hw.mem_children_iff.mp hc
  have hp := hw.isPrefix_namesDown hj
  rw [hd, h, List.prefix_append_right_inj] at hp
  have ⟨rest, hr⟩ := hp
  exact ⟨n.name, rest, hr.symm, by simp [hasName, hn]⟩

theorem namesDown_of_hasName (hw : t.WellFormed) {c : Nat} {name : String}
    (hc : c ∈ t.children id) (hn : t.hasName name c) :
    t.namesDown c = t.namesDown id ++ [name] := by
  have ⟨n, hg, hd⟩ := hw.namesDown_of_up <| hw.mem_children_iff.mp hc
  have hn : n.name = name := by simpa [hasName, hg] using hn
  exact hn ▸ hd

theorem filter_preorder_namesDown_eq (hw : t.WellFormed) :
    (t.preorder id).filter (fun j => t.namesDown j = t.namesDown id) = [id] := by
  rw [hw.preorder_eq, List.filter_cons_of_pos (by simp), List.cons_inj_right,
    List.filter_eq_nil_iff]
  intro j hj he
  have ⟨c, hc, hj⟩ := List.mem_flatMap.mp hj
  have he : t.namesDown j = t.namesDown id ++ [] := by simpa using he
  have ⟨_, _, hn, _⟩ := hw.hasName_of_mem_below hc hj he
  contradiction

-- Going down by names from a node leads to the nodes below whose names continue those of the node
-- in this way, in pre-order.
theorem reach_namedPath (hw : t.WellFormed) :
    t.reach list (namedPath names) (.node id) =
      ((t.preorder id).filter fun j => t.namesDown j = t.namesDown id ++ names).map .node := by
  induction names generalizing id
  case nil => simp [namedPath, reach, hw.filter_preorder_namesDown_eq]
  case cons name names hi =>
    have hc : ∀ c ∈ t.children id,
        (t.preorder c).filter (fun j => t.namesDown j = t.namesDown id ++ name :: names) =
          if t.hasName name c then
            (t.preorder c).filter fun j => t.namesDown j = t.namesDown c ++ names
          else
            [] := by
      intro c hc
      split
      case isTrue hn  => simp [hw.namesDown_of_hasName hc hn]
      case isFalse hn =>
        rw [List.filter_eq_nil_iff]
        intro j hj he
        obtain ⟨_, _, hn', hc⟩ := hw.hasName_of_mem_below hc hj (of_decide_eq_true he)
        cases hn'
        exact hn hc
    have hr : t.reach list (namedPath (name :: names)) (.node id) =
        ((t.children id).filter (t.hasName name)).flatMap
          fun c => t.reach list (namedPath names) (.node c) := by
      simp [namedPath, reach, Cursor.next, Cursor.children, Cursor.passes, List.filter_map,
        List.flatMap_map, Function.comp_def]
    rw [hr, flatMap_filter, hw.preorder_eq, List.filter_cons_of_neg (by simp),
      List.filter_flatMap, List.map_flatMap]
    apply List.flatMap_congr
    intro c hm
    rw [hc c hm, hi]
    split <;> rfl

theorem designated_byNames (hw : t.WellFormed) {root : String} :
    t.designated (.byNames root names) =
      (t.preorder t.root).filter fun j => t.namesDown j = root :: names := by
  have ⟨n, hn⟩ := exists_get?_of_lt_size hw.root_lt
  have hd := hw.namesDown_root hn
  by_cases he : n.name = root
  case pos =>
    simp [designated, designatedBy, Alternative.byNames, starts, hasName, hn, he, Cursor.passes,
      hw.reach_namedPath, hd, List.filterMap_map, Function.comp_def, Cursor.id?]
  case neg =>
    have hf : (t.preorder t.root).filter (fun j => t.namesDown j = root :: names) = [] := by
      rw [List.filter_eq_nil_iff]
      intro j hj hc
      have hp := hw.isPrefix_namesDown hj
      rw [hd, of_decide_eq_true hc, List.cons_prefix_cons] at hp
      exact he hp.left
    rw [hf]
    simp [designated, designatedBy, Alternative.byNames, starts, hasName, hn, he]

-- The path of a node is the text of an alternative.
theorem exists_namesDown_eq_cons (hw : t.WellFormed) (h : id < t.size) :
    ∃ root names, t.namesDown id = root :: names ∧
      t.pathOf id = (Alternative.byNames root names).text := by
  have ⟨n, hn⟩ := exists_get?_of_lt_size hw.root_lt
  have hp := hw.isPrefix_namesDown <| hw.mem_preorder_root_iff.mpr h
  rw [hw.namesDown_root hn] at hp
  have ⟨names, hd⟩ := hp
  exact ⟨n.name, names, hd.symm, by rw [pathOf_eq, Alternative.text_byNames, ←hd]; rfl⟩

theorem pathOf_eq_iff (hw : t.WellFormed) (hn : ∀ n ∈ t.nodes, isWord n.name.toList)
    (h : id < t.size) (hj : j < t.size) :
    t.pathOf j = t.pathOf id ↔ t.namesDown j = t.namesDown id := by
  have hm : ∀ id, ∀ name ∈ t.namesDown id, isWord name.toList := fun _ => forall_mem_namesDown hn
  have ⟨_, _, hd, hp⟩   := hw.exists_namesDown_eq_cons h
  have ⟨_, _, hd', hp'⟩ := hw.exists_namesDown_eq_cons hj
  rw [hp, hp', hd, hd', Alternative.text_byNames_inj (hd' ▸ hm j) (hd ▸ hm id)]

-- What the text of a path by names finds.
theorem exists_query_byNames (hw : t.WellFormed) {root : String}
    (h : ∀ name ∈ root :: names, isWord name.toList) :
    ∃ answer, t.query (Alternative.byNames root names).text = some answer ∧
      answer.found = (t.preorder t.root).filter fun j => t.namesDown j = root :: names := by
  have ⟨answer, ha, hf⟩ := hw.exists_query (Alternative.byNames root names).text
  refine ⟨answer, ha, hf.trans ?_⟩
  rw [Alternative.accepted_text_byNames h, List.flatMap_singleton, hw.designated_byNames]
  exact eraseDups_eq_self <| hw.nodup_preorder.filter _

end WellFormed

-- The path of a node selects the node, and with it exactly the nodes with the same path.
theorem Reachable.query_pathOf (h : t.Reachable) (hn : ∀ n ∈ t.nodes, isWord n.name.toList) :
    (∀ id, id < t.size → ∃ answer, t.query (t.pathOf id) = some answer ∧
      answer.found = (t.preorder t.root).filter (fun j => t.pathOf j = t.pathOf id) ∧
      answer.found.Nodup ∧
      (∀ j, j ∈ answer.found ↔ j < t.size ∧ t.pathOf j = t.pathOf id) ∧
      id ∈ answer.found) ∧
    ∃ n answer, t.get? t.root = some n ∧ t.query ("/" ++ n.name) = some answer ∧
      answer.found = [t.root] := by
  have hw := h.wellFormed
  constructor
  case left =>
    intro id hi
    have ⟨root, names, hd, hp⟩ := hw.exists_namesDown_eq_cons hi
    have hm : ∀ name ∈ t.namesDown id, isWord name.toList := forall_mem_namesDown hn
    have ⟨answer, ha, hf⟩ := hw.exists_query_byNames (hd ▸ hm)
    have hf : answer.found = (t.preorder t.root).filter (fun j => t.pathOf j = t.pathOf id) := by
      rw [hf, ←hd]
      apply List.filter_congr
      intro j hj
      rw [decide_eq_decide, hw.pathOf_eq_iff hn hi <| hw.mem_preorder_root_iff.mp hj]
    have hj : ∀ j, j ∈ answer.found ↔ j < t.size ∧ t.pathOf j = t.pathOf id := by
      simp [hf, hw.mem_preorder_root_iff]
    refine ⟨answer, hp ▸ ha, hf, hf ▸ hw.nodup_preorder.filter _, hj, ?_⟩
    exact (hj id).mpr ⟨hi, rfl⟩
  case right =>
    have ⟨n, hg⟩ := exists_get?_of_lt_size hw.root_lt
    have hd := hw.namesDown_root hg
    have hm : ∀ name ∈ t.namesDown t.root, isWord name.toList := forall_mem_namesDown hn
    have ⟨answer, ha, hf⟩ := hw.exists_query_byNames (hd ▸ hm)
    have ht : (Alternative.byNames n.name []).text = "/" ++ n.name := by
      simp [Alternative.text_byNames]
    refine ⟨n, answer, hg, ht ▸ ha, hf.trans ?_⟩
    rw [←hd, hw.filter_preorder_namesDown_eq]

-- Siblings of the same name have the same path, and so have nodes below different ones of them.
theorem query_pathOf_siblings :
    let m : Node := ⟨"a", none, none, none, .empty, [], none⟩
    let n : Node := { m with name := "b-1.0" }
    let t := (ofRoot m).afterCalls [(0, n), (0, m), (0, n), (3, m), (1, m)]
    t.Reachable ∧ (∀ k ∈ t.nodes, isWord k.name.toList) ∧
      (∃ answer, t.query (t.pathOf 4) = some answer ∧ 5 ∈ answer.found ∧ 2 ∉ answer.found ∧
        answer.found.Nodup) ∧
      ∃ answer, t.query "/a" = some answer ∧ answer.found = [0] := by
  intro m n t
  have h : t.Reachable := (Reachable.ofRoot m).afterCalls
  have hn : ∀ k ∈ t.nodes, isWord k.name.toList := by decide +kernel
  have hs : t.size = 6 := by decide +kernel
  have hr : (t.get? t.root).map Node.name = some "a" := by decide +kernel
  have h₂ : t.pathOf 2 = "/a/a" := by decide +kernel
  have h₄ : t.pathOf 4 = "/a/b-1.0/a" := by decide +kernel
  have h₅ : t.pathOf 5 = "/a/b-1.0/a" := by decide +kernel
  have ⟨hp, k, answer, hk, ha, hf⟩ := h.query_pathOf hn
  have ⟨answer', ha', _, hd, hm, _⟩ := hp 4 (hs ▸ by decide)
  have hk : k.name = "a" := by simpa [hk] using hr
  refine ⟨h, hn, ⟨answer', ha', ?_, ?_, hd⟩, answer, ?_, hf⟩
  case refine_1 => simp [hm, hs, h₄, h₅]
  case refine_2 => simp [hm, h₂, h₄]
  case refine_3 => simpa [hk] using ha

end Tree
end TreeQuery
