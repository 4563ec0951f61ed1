import TreeQuery.Proofs.Evaluation.Distinct

namespace TreeQuery

variable {t : Tree} {c : Cursor} {id : Nat}

-- The nodes with the same parent, the node itself among them. The root has no others beside it.
def Cursor.siblings (t : Tree) : Cursor → List Cursor
  | node id   => (t.parent? id).elim [node t.root] fun p => (t.children p).map node
  | aboveRoot => []

theorem Cursor.siblings_eq :
    c.siblings t = (c.parent? t).toList.flatMap fun p => (p.children t).map node := by
  cases c
  case aboveRoot => rfl
  case node id   => cases hp : t.parent? id <;> simp [siblings, parent?, children, hp]

namespace Tree.WellFormed

-- Each child leads back up to where one came from.
theorem flatMap_parent?_children (hw : t.WellFormed) :
    ((c.children t).map Cursor.node).flatMap (fun d => (d.parent? t).toList) =
      List.replicate (c.children t).length c := by
  have hp : ∀ d ∈ (c.children t).map Cursor.node, (d.parent? t).toList = [c] := by
    intro d hd
    have hb : d.Within t := within_map_node hw.lt_size_of_mem_cursor_children d hd
    rw [hw.mem_map_children_iff hb |>.mp hd]
    rfl
  rw [List.flatMap_congr hp, ←List.map_eq_flatMap, List.map_const', List.length_map]

theorem nodup_siblings (hw : t.WellFormed) : (c.siblings t).Nodup := by
  rw [Cursor.siblings_eq]
  cases c.parent? t
  case none   => exact List.nodup_nil
  case some p => simpa using hw.nodup_children.map fun _ _ => Cursor.node.inj

theorem mem_siblings (hw : t.WellFormed) (h : id < t.size) :
    .node id ∈ (Cursor.node id).siblings t := by
  have hb : (Cursor.node id).Within t := h
  have hp : (Cursor.node id).parent? t = some ((t.parent? id).elim .aboveRoot .node) := rfl
  rw [Cursor.siblings_eq, hp, Option.toList_some, List.flatMap_singleton]
  exact hw.mem_map_children_iff hb |>.mpr hp

end Tree.WellFormed

namespace Tree

-- The way down to the children and the way up to the parent undo each other, above the root as
-- well. Down and up again, each position comes back once for each of its children. Up and down
-- again, each node is there once among the children of its parent.
theorem Reachable.step_wildcard_step_parent (h : t.Reachable) (v : Visits) (cs : List Cursor) :
    (∃ down, t.step .wildcard v cs = some (down, v) ∧
      t.step .parent v down =
        some (cs.flatMap fun c => List.replicate (c.children t).length c, v)) ∧
    (∃ up, t.step .parent v cs = some (up, v) ∧
      t.step .wildcard v up = some (cs.flatMap (·.siblings t), v)) ∧
    (Cursor.node t.root).siblings t = [.node t.root] ∧
    ∀ id, id < t.size → ((Cursor.node id).siblings t).count (.node id) = 1 := by
  have hw := h.wellFormed
  refine ⟨⟨_, step_wildcard, ?down_up⟩, ⟨_, step_parent, ?up_down⟩, ?root, fun id hi => ?once⟩
  case down_up =>
    rw [step_parent, List.flatMap_assoc]
    simp only [hw.flatMap_parent?_children]
  case up_down =>
    rw [step_wildcard, List.flatMap_assoc]
    simp only [Cursor.siblings_eq]
  case root    => simp [Cursor.siblings, hw.parent?_root]
  case once    => exact List.count_eq_one_of_mem hw.nodup_siblings <| hw.mem_siblings hi

-- Positions of different levels in any order, one of them twice. Node 0 has two children, and
-- node 2 has none.
theorem step_wildcard_step_parent_mixed :
    let n : Node := ⟨"a", none, none, none, .empty, [], none⟩
    let t := (ofRoot n).afterCalls [(0, n), (0, n), (1, n)]
    let v := Visits.ofTree t
    let cs : List Cursor := [.node 1, .aboveRoot, .node 0, .node 2, .node 1]
    let downUp : List Cursor := [.node 1, .aboveRoot, .node 0, .node 0, .node 1]
    let upDown : List Cursor := [.node 1, .node 2, .node 0, .node 1, .node 2, .node 1, .node 2]
    t.Reachable ∧
      (∃ down, t.step .wildcard v cs = some (down, v) ∧
        t.step .parent v down = some (downUp, v)) ∧
      (∃ up, t.step .parent v cs = some (up, v) ∧ t.step .wildcard v up = some (upDown, v)) ∧
      ((Cursor.node 2).siblings t).count (.node 2) = 1 := by
  intro n t v cs downUp upDown
  have h : t.Reachable := (Reachable.ofRoot n).afterCalls
  have hd : cs.flatMap (fun c => List.replicate (c.children t).length c) = downUp := by
    decide +kernel
  have hu : cs.flatMap (·.siblings t) = upDown := by decide +kernel
  obtain ⟨hdown, hup, _, honce⟩ := h.step_wildcard_step_parent v cs
  exact ⟨h, hd ▸ hdown, hu ▸ hup, honce 2 (by decide)⟩

end Tree
end TreeQuery
