import Mathlib.Data.List.Chain
import Mathlib.Data.List.Forall2
import Mathlib.Logic.Function.Iterate
import TreeQuery.Proofs.Tree.Extension
import TreeQuery.Proofs.Tree.Ownership

namespace TreeQuery

theorem join_map_slash_eq {names : List String} (h : names ≠ []) :
    String.join (names.map ("/" ++ ·)) = "/" ++ "/".intercalate names := by
  induction names
  case nil => contradiction
  case cons name names hi =>
    cases names
    case nil  => simp
    case cons =>
      rw [List.map_cons, String.join_cons, hi (by simp),
        String.intercalate_cons_cons, ←String.append_assoc, ←String.append_assoc,
        ←String.append_assoc]

namespace Tree

-- The names from the root down to a node.
def namesDown (t : Tree) (id : Nat) : List String :=
  (t.namesUp id).reverse

-- The nodes from the root down to a node, found by the links up. A link to a larger id, which no
-- tree has, is not followed.
def lineage (t : Tree) (id : Nat) : List Nat :=
  match t.parent? id with
  | none   => [id]
  | some p => if p < id then t.lineage p ++ [id] else [id]
termination_by id

-- By the links down, the nodes lead from the root to a node.
structure IsLineage (t : Tree) (id : Nat) (ids : List Nat) : Prop where
  head?_eq    : ids.head? = some t.root
  getLast?_eq : ids.getLast? = some id
  isChain     : ids.IsChain t.Down

-- A turn of the way up from a node: its name is noted, and the next turn takes the node that it
-- names as its parent, whichever that is.
def climb (t : Tree) : Option Nat × List String → Option Nat × List String
  | (none, names)    => (none, names)
  | (some id, names) => (t.get? id).elim (none, names) fun n => (n.parent, names ++ [n.name])

variable {t u : Tree} {id j k parent : Nat} {ids : List Nat} {n : Node} {names : List String}

theorem pathOf_eq : t.pathOf id = String.join ((t.namesDown id).map ("/" ++ ·)) :=
  rfl

theorem namesDown_eq_nil_of_size_le (h : t.size ≤ id) : t.namesDown id = [] := by
  rw [namesDown, namesUp, get?_eq_none_iff.mpr h, List.reverse_nil]

theorem climb_none : t.climb^[k] (none, names) = (none, names) :=
  Function.iterate_fixed rfl k

-- The way up from a node looks at the names and parents only.
theorem Extends.namesUp_eq (h : u.Extends t) (hi : id < t.size) : u.namesUp id = t.namesUp id := by
  fun_induction t.namesUp id
  case case1 hn      => exact absurd hi <| not_lt.mpr <| get?_eq_none_iff.mp hn
  case case2 hm hp   =>
    have ⟨_, _, hu⟩ := h hm
    rw [namesUp]
    simp only [hu, hp]
  case case3 id m hm p hp hi' =>
    have ⟨_, _, hu⟩ := h hm
    rw [namesUp]
    simp only [hu, hp]
    congr 1
    split
    case isTrue hl => exact hi' hl (hl.trans hi)
    case isFalse   => rfl

theorem Extends.pathOf_eq (h : u.Extends t) (hi : id < t.size) : u.pathOf id = t.pathOf id := by
  rw [pathOf, pathOf, h.namesUp_eq hi]

namespace WellFormed

theorem namesDown_root (hw : t.WellFormed) {n : Node} (hn : t.get? t.root = some n) :
    t.namesDown t.root = [n.name] := by
  have hp : n.parent = none := by simpa [parent?, hn] using hw.parent?_root
  simp [namesDown, namesUp, hn, hp]

theorem namesDown_of_up (hw : t.WellFormed) (h : t.Up j id) :
    ∃ n, t.get? j = some n ∧ t.namesDown j = t.namesDown id ++ [n.name] := by
  have hp : t.parent? j = some id := h
  have ⟨n, hn⟩ := exists_get?_of_lt_size <| lt_size_of_parent?_eq_some hp
  have hp' : n.parent = some id := by simpa [parent?, hn] using hp
  refine ⟨n, hn, ?_⟩
  rw [namesDown, namesUp]
  simp [namesDown, hn, hp', hw.parent_lt hp]

theorem pathOf_of_up (hw : t.WellFormed) (h : t.Up j id) (hn : t.get? j = some n) :
    t.pathOf j = t.pathOf id ++ "/" ++ n.name := by
  have ⟨m, hm, hd⟩ := hw.namesDown_of_up h
  cases hn.symm.trans hm
  simp [Tree.pathOf_eq, hd, String.append_assoc]

theorem lineage_root (hw : t.WellFormed) : t.lineage t.root = [t.root] := by
  rw [lineage, hw.parent?_root]

theorem lineage_of_up (hw : t.WellFormed) (h : t.Up j id) :
    t.lineage j = t.lineage id ++ [j] := by
  have hp : t.parent? j = some id := h
  rw [lineage, hp]
  exact if_pos <| hw.parent_lt hp

theorem isLineage_lineage (hw : t.WellFormed) (h : id < t.size) :
    t.IsLineage id (t.lineage id) := by
  induction hw.down_from_root h
  case refl => rw [hw.lineage_root]; exact ⟨rfl, rfl, .singleton _⟩
  case tail p id _ hd hi =>
    have hi := hi <| lt_size_of_mem_children hd
    rw [hw.lineage_of_up <| hw.mem_children_iff.mp hd]
    constructor
    case head?_eq    => rw [List.head?_append, hi.head?_eq, Option.some_or]
    case getLast?_eq => exact List.getLast?_concat
    case isChain     =>
      refine hi.isChain.append (.singleton _) fun p hp id hid => ?_
      cases hi.getLast?_eq.symm.trans hp
      cases hid
      exact hd

-- No node has two parents, so there is no other way down.
theorem eq_lineage (hw : t.WellFormed) (h : t.IsLineage id ids) : ids = t.lineage id := by
  induction ids using List.reverseRecOn generalizing id
  case nil => cases h.head?_eq
  case append_singleton ids j hi =>
    cases List.getLast?_concat.symm.trans h.getLast?_eq
    have ⟨hc, _, hd⟩ := List.isChain_append.mp h.isChain
    cases hp : ids.getLast?
    case none   =>
      cases List.getLast?_eq_none_iff.mp hp
      cases h.head?_eq
      exact hw.lineage_root.symm
    case some p =>
      have hn : ids ≠ [] := by rintro rfl; cases hp
      have hl : t.IsLineage p ids := {
        head?_eq    := List.head?_append_of_ne_nil _ hn ▸ h.head?_eq
        getLast?_eq := hp
        isChain     := hc
      }
      have hd : t.Down p j := hd p hp j rfl
      rw [hw.lineage_of_up <| hw.mem_children_iff.mp hd, ←hi hl]

theorem isLineage_iff (hw : t.WellFormed) (h : id < t.size) :
    t.IsLineage id ids ↔ ids = t.lineage id :=
  ⟨hw.eq_lineage, fun he => he ▸ hw.isLineage_lineage h⟩

theorem names_lineage (hw : t.WellFormed) (h : id < t.size) :
    List.Forall₂ (fun j name => (t.get? j).map Node.name = some name)
      (t.lineage id) (t.namesDown id) := by
  induction hw.down_from_root h
  case refl =>
    have ⟨n, hn⟩ := exists_get?_of_lt_size hw.root_lt
    rw [hw.lineage_root, hw.namesDown_root hn]
    exact .cons (by rw [hn]; rfl) .nil
  case tail p id _ hd hi =>
    have hu : t.Up id p := hw.mem_children_iff.mp hd
    have ⟨n, hn, hnames⟩ := hw.namesDown_of_up hu
    rw [hw.lineage_of_up hu, hnames]
    exact List.rel_append (hi <| lt_size_of_mem_children hd) <| .cons (by rw [hn]; rfl) .nil

-- A parent has a smaller id, so the way up from a node ends.
theorem climb_eq (hw : t.WellFormed) (h : id < k) :
    t.climb^[k] (some id, names) = (none, names ++ t.namesUp id) := by
  induction k generalizing id names
  case zero => contradiction
  case succ k hi =>
    rw [Function.iterate_succ_apply, namesUp]
    cases hg : t.get? id
    case none   => simp [climb, hg, climb_none]
    case some n =>
      cases hp : n.parent
      case none   => simp [climb, hg, hp, climb_none]
      case some p =>
        have hl : p < id := hw.parent_lt <| by simp [parent?, hg, hp]
        simp [climb, hg, hp, hl, hi <| hl.trans_le <| Nat.le_of_lt_succ h]

end WellFormed

theorem pathOf_eq_empty_of_size_le (h : t.size ≤ id) : t.pathOf id = "" := by
  rw [pathOf_eq, namesDown_eq_nil_of_size_le h]
  rfl

theorem WellFormed.namesDown_ne_nil (hw : t.WellFormed) (h : id < t.size) :
    t.namesDown id ≠ [] := by
  intro hn
  have hl := (hw.names_lineage h).length_eq
  have hr := (hw.isLineage_lineage h).head?_eq
  rw [hn, List.length_nil, List.length_eq_zero_iff] at hl
  simp [hl] at hr

theorem WellFormed.pathOf_eq_intercalate (hw : t.WellFormed) (h : id < t.size) :
    t.pathOf id = "/" ++ "/".intercalate (t.namesDown id) :=
  join_map_slash_eq <| hw.namesDown_ne_nil h

theorem WellFormed.pathOf_eq_empty_iff (hw : t.WellFormed) : t.pathOf id = "" ↔ t.size ≤ id := by
  refine ⟨fun h => ?_, pathOf_eq_empty_of_size_le⟩
  by_contra hi
  simp [hw.pathOf_eq_intercalate (not_le.mp hi)] at h

-- A new child is what was given except for its links, and nothing else changes but the list of the
-- children of its parent. So paths stay, and the path of a node spells the names on the way from
-- the root down to it.
theorem Reachable.pathOf_addChild (h : t.Reachable) :
    (∀ parent n, parent < t.size →
      ∃ t', t.addChild parent n = .ok (t.size, t') ∧ t'.size = t.size + 1 ∧
        t'.get? t.size = some { n with children := [], parent := some parent } ∧
        (∀ id m, t.get? id = some m → t'.get? id = some
          (if id = parent then { m with children := m.children ++ [t.size] } else m)) ∧
        (∀ id, id < t.size → t'.pathOf id = t.pathOf id) ∧
        t'.pathOf t.size = t.pathOf parent ++ "/" ++ n.name) ∧
    (∀ id, ∃ names, t.climb^[id + 1] (some id, []) = (none, names) ∧
      t.pathOf id = String.join (names.reverse.map ("/" ++ ·))) ∧
    (∀ id, id < t.size →
      (∀ ids, t.IsLineage id ids ↔ ids = t.lineage id) ∧
      ∃ names, t.pathOf id = "/" ++ "/".intercalate names ∧
        List.Forall₂ (fun j name => (t.get? j).map Node.name = some name) (t.lineage id) names) ∧
    (∀ id, t.pathOf id = "" ↔ t.size ≤ id) := by
  have hw := h.wellFormed
  refine ⟨fun parent n hp => ?grow, fun id => ?climb, fun id hi => ?spell, fun id => ?empty⟩
  case grow  =>
    have hw' : (t.attach parent n).WellFormed := hw.attach hp
    have hpath {id : Nat} (hi : id < t.size) : (t.attach parent n).pathOf id = t.pathOf id :=
      Extends.attach.pathOf_eq hi
    have hu : (t.attach parent n).Up t.size parent := parent?_attach.trans <| if_pos rfl
    refine ⟨_, addChild_eq_ok_iff.mpr ⟨hp, rfl, rfl⟩, size_attach, get?_attach_size,
      fun id m hm => ?_, fun _ => hpath, ?_⟩
    · have hi : id < t.size := not_le.mp fun hs => by simp [get?_eq_none_iff.mpr hs] at hm
      rw [get?_attach_of_lt hi, hm, Option.map_some]
    · rw [hw'.pathOf_of_up hu get?_attach_size, hpath hp]
  case climb => exact ⟨_, hw.climb_eq (Nat.lt_succ_self id), by rw [List.nil_append]; rfl⟩
  case spell =>
    exact ⟨fun _ => hw.isLineage_iff hi, _, hw.pathOf_eq_intercalate hi, hw.names_lineage hi⟩
  case empty => exact hw.pathOf_eq_empty_iff

-- A copy of a node of the tree is added below this node, with the links that it has there.
theorem pathOf_addChild_copy :
    let m : Node := ⟨"a", none, none, none, .empty, [], none⟩
    let n : Node := ⟨"b", some "x", none, none, .ofList [("k", "v"), ("i", "w")], [], some 0⟩
    let t := ((ofRoot m).attach 0 n).attach 1 m
    let copy : Node := { n with children := [2] }
    t.Reachable ∧ t.get? 1 = some copy ∧
      (∃ t', t.addChild 1 copy = .ok (3, t') ∧ t'.get? 3 = some { n with parent := some 1 } ∧
        t'.get? 1 = some { n with children := [2, 3] } ∧
        t'.pathOf 2 = "/a/b/a" ∧ t'.pathOf 3 = "/a/b/b") ∧
      (∃ names, t.climb^[3] (some 2, []) = (none, names) ∧
        "/a/b/a" = String.join (names.reverse.map ("/" ++ ·))) ∧
      t.IsLineage 2 [0, 1, 2] ∧
      t.pathOf 3 = "" := by
  intro m n t copy
  have h : t.Reachable := .attach (.attach (.ofRoot m) (by decide)) (by decide)
  have hc : t.get? 1 = some copy := rfl
  have h₁ : t.pathOf 1 = "/a/b" := by decide +kernel
  have h₂ : t.pathOf 2 = "/a/b/a" := by decide +kernel
  have hl : t.lineage 2 = [0, 1, 2] := by decide +kernel
  obtain ⟨hgrow, hclimb, hline, hempty⟩ := h.pathOf_addChild
  obtain ⟨t', ha, _, hnew, hold, hpath, hpath'⟩ := hgrow 1 copy (by decide)
  refine ⟨h, hc, ⟨t', ha, hnew, hold 1 copy hc, ?_, ?_⟩, h₂ ▸ hclimb 2, ?_, ?_⟩
  · exact (hpath 2 (by decide)).trans h₂
  · exact hpath'.trans <| by rw [h₁]; decide
  · exact (hline 2 (by decide)).left _ |>.mpr hl.symm
  · exact hempty 3 |>.mpr (by decide)

end Tree
end TreeQuery
