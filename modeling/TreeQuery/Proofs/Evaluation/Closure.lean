import TreeQuery.Proofs.Evaluation.DepthFirst
import TreeQuery.Proofs.Tree.Generation

namespace TreeQuery

open Relation (ReflTransGen TransGen)

namespace Cursor

variable {t : Tree} {c : Cursor} {id k : Nat}

-- The positions `k` levels below a position, in order.
def generation (t : Tree) (c : Cursor) : Nat → List Cursor
  | 0     => [c]
  | k + 1 => ((c.children t).flatMap (t.generation k)).map node

-- The position `k` levels above a position.
def above? (t : Tree) : Nat → Cursor → Option Cursor
  | 0,     c => some c
  | k + 1, c => (c.parent? t).bind (above? t k)

-- A node is strictly below another one if links lead down to it. All nodes are below the level
-- above the root.
def IsAbove (t : Tree) : Cursor → Nat → Prop
  | node a,    id => TransGen t.Down a id
  | aboveRoot, id => id < t.size

theorem generation_node : (node id).generation t k = (t.generation k id).map node := by
  cases k <;> rfl

theorem generation_eq_flatMap_children :
    c.generation t (k + 1) = ((c.children t).map node).flatMap (·.generation t k) := by
  rw [generation, List.map_flatMap, List.flatMap_map]
  exact List.flatMap_congr fun _ _ => generation_node.symm

theorem generation_succ :
    c.generation t (k + 1) = (c.generation t k).flatMap fun d => (d.children t).map node := by
  cases k
  case zero => simp [generation, Tree.generation]
  case succ k =>
    have hg : t.generation (k + 1) = fun id => (t.generation k id).flatMap t.children :=
      funext fun _ => Tree.generation_succ
    simp only [generation, hg, List.flatMap_map, ←List.map_flatMap, ←List.flatMap_assoc]
    rfl

end Cursor

namespace Tree

variable {t : Tree} {v : Visits} {size id k n : Nat} {c d : Cursor} {cs : List Cursor}

-- The same step `k` times in a row.
def stepTimes (t : Tree) (s : Step) : Nat → Visits → List Cursor → Option (List Cursor × Visits)
  | 0,     v, cs => some (cs, v)
  | k + 1, v, cs => do
    let (found, v') ← t.step s v cs
    t.stepTimes s k v' found

theorem step_wildcard :
    t.step .wildcard v cs = some (cs.flatMap fun c => (c.children t).map .node, v) := by
  induction cs
  case nil          => rfl
  case cons c cs hi => simp [step, successors, hi]

theorem stepTimes_wildcard :
    t.stepTimes .wildcard k v cs = some (cs.flatMap (·.generation t k), v) := by
  induction k generalizing cs
  case zero      => simp [stepTimes, Cursor.generation]
  case succ k hi =>
    simp only [stepTimes, step_wildcard, Option.bind_eq_bind, Option.bind_some, hi,
      List.flatMap_assoc, Cursor.generation_eq_flatMap_children]

theorem step_parent : t.step .parent v cs = some (cs.flatMap fun c => (c.parent? t).toList, v) := by
  induction cs
  case nil          => rfl
  case cons c cs hi => simp [step, successors, hi]

theorem stepTimes_parent {above : Option Cursor} :
    t.stepTimes .parent k v above.toList = some ((above.bind (Cursor.above? t k)).toList, v) := by
  induction k generalizing above
  case zero      => cases above <;> rfl
  case succ k hi =>
    have hp : (above.toList.flatMap fun c => (c.parent? t).toList) =
        (above.bind (·.parent? t)).toList := by
      cases above <;> simp
    simp only [stepTimes, step_parent, hp, Option.bind_eq_bind, Option.bind_some, hi,
      Option.bind_assoc]
    rfl

namespace WellFormed

-- Links up and links down agree, above the root as well.
theorem mem_map_children_iff (hw : t.WellFormed) (hd : d.Within t) :
    d ∈ (c.children t).map Cursor.node ↔ d.parent? t = some c := by
  cases d
  case aboveRoot => simp [Cursor.parent?]
  case node id   =>
    have hr := hw.parent?_eq_none_iff hd
    cases c <;> cases hp : t.parent? id <;>
      simp_all [Cursor.children, Cursor.parent?, hw.mem_children_iff]

-- The positions some levels below are those from which as many levels up lead back.
theorem mem_generation_iff (hw : t.WellFormed) (hd : d.Within t) :
    d ∈ c.generation t k ↔ d.above? t k = some c := by
  induction k generalizing d
  case zero      => simp [Cursor.generation, Cursor.above?]
  case succ k hi =>
    simp only [Cursor.generation_succ, List.mem_flatMap, hw.mem_map_children_iff hd, Cursor.above?,
      Option.bind_eq_some_iff]
    refine exists_congr fun e => ?_
    rw [and_comm]
    exact and_congr_right fun he => hi <| hw.within_parent? he

-- The descendants of all positions together are their generations, one after the other.
theorem next_descendants_perm (hw : t.WellFormed) (hn : t.size ≤ n) :
    (cs.flatMap (·.next t t.below .descendants)).Perm <|
      (List.range' 1 n).flatMap fun k => cs.flatMap (·.generation t k) := by
  have hb : ∀ id ∈ cs.flatMap (·.children t), id < t.size ∧ t.size ≤ id + n := by
    intro id hi
    have ⟨c, _, hi⟩ := List.mem_flatMap.mp hi
    exact ⟨hw.lt_size_of_mem_cursor_children id hi, by omega⟩
  have hp := (hw.flatMap_preorder_perm hb).map Cursor.node
  simpa [Cursor.next, Cursor.generation, List.range'_eq_map_range, List.flatMap_map,
    List.map_flatMap, List.flatMap_assoc, Nat.add_comm 1] using hp

theorem mem_next_descendants_iff (hw : t.WellFormed) (hd : d.Within t) :
    d ∈ c.next t t.below .descendants ↔ ∃ k, d.above? t (k + 1) = some c := by
  have hm {n : Nat} (hn : t.size ≤ n) : d ∈ c.next t t.below .descendants ↔
      ∃ k, (1 ≤ k ∧ k < 1 + n) ∧ d ∈ c.generation t k := by
    have hp : ([c].flatMap _).Perm _ := hw.next_descendants_perm hn
    simpa using hp.mem_iff
  constructor
  case mp =>
    intro h
    have ⟨k, hk, h⟩ := hm le_rfl |>.mp h
    refine ⟨k - 1, hw.mem_generation_iff hd |>.mp ?_⟩
    rwa [Nat.sub_add_cancel hk.left]
  case mpr =>
    intro ⟨k, h⟩
    have hk : 1 ≤ k + 1 ∧ k + 1 < 1 + max t.size (k + 1) := by omega
    exact hm (le_max_left ..) |>.mpr ⟨k + 1, hk, hw.mem_generation_iff hd |>.mpr h⟩

theorem mem_below_children_iff_isAbove (hw : t.WellFormed) :
    id ∈ t.below (c.children t) ↔ c.IsAbove t id := by
  cases c
  case aboveRoot => simpa [Cursor.children, Cursor.IsAbove] using hw.mem_preorder_root_iff
  case node a    =>
    have hd : t.Down = Function.swap t.Up := funext₂ fun _ _ => propext hw.mem_children_iff
    simp only [Cursor.IsAbove, TransGen.head'_iff, hd, Relation.reflTransGen_swap, List.mem_flatMap,
      hw.mem_preorder_iff, Cursor.children, Function.swap, ←hw.mem_children_iff, Up]

end WellFormed

-- With descendants one gets to where one gets with any number of children. A position leads to each
-- node below it exactly once, and these are the nodes from which some steps to the parent lead back
-- to it.
theorem Reachable.step_descendants_perm (h : t.Reachable) (hv : v.Ready size)
    (hs : t.size ≤ size) :
    (∀ cs, ∃ found v' level, t.step .descendants v cs = some (found, v') ∧
      (∀ k, t.stepTimes .wildcard k v cs = some (level k, v)) ∧
      found.Perm ((List.range' 1 t.size).flatMap level)) ∧
    ∀ c, ∃ (ids : List Nat) (v' : Visits),
      t.step .descendants v [c] = some (ids.map .node, v') ∧ ids.Nodup ∧
      (∀ id, id ∈ ids ↔ c.IsAbove t id) ∧
      ∀ d, d.Within t →
        (d ∈ ids.map .node ↔ ∃ k, t.stepTimes .parent (k + 1) v [d] = some ([c], v)) := by
  have hw := h.wellFormed
  have hstep (cs : List Cursor) := hw.step_eq (hw.lists hs) hv .descendants cs
  constructor
  case left =>
    intro cs
    have ⟨v', hf, _⟩ := hstep cs
    exact ⟨_, v', _, hf, fun k => stepTimes_wildcard, hw.next_descendants_perm le_rfl⟩
  case right =>
    intro c
    have ⟨v', hf, _⟩ := hstep [c]
    rw [List.flatMap_singleton] at hf
    refine ⟨_, v', hf, hw.nodup_below_cursor, fun _ => hw.mem_below_children_iff_isAbove, ?_⟩
    intro d hd
    have hp (k : Nat) : t.stepTimes .parent k v [d] = some ((d.above? t k).toList, v) :=
      @stepTimes_parent t v k (some d)
    exact (hw.mem_next_descendants_iff hd).trans <| exists_congr fun k => by
      simp [hp, Option.toList_eq_singleton_iff]

-- Three nodes one below the other. The lowest one is below each of the origins, once per origin.
theorem step_descendants_perm_nested :
    let n : Node := ⟨"a", none, none, none, .empty, [], none⟩
    let t := (ofRoot n).afterCalls [(0, n), (1, n)]
    let v := Visits.ofTree t
    let cs : List Cursor := [.node 1, .aboveRoot, .node 1]
    t.Reachable ∧ v.Ready t.size ∧
      (∃ found v', t.step .descendants v cs = some (found, v') ∧
        found.Perm ([.node 2, .node 0, .node 2] ++ [.node 1] ++ [.node 2])) ∧
      Cursor.aboveRoot.IsAbove t 2 ∧
      ∃ k, t.stepTimes .parent (k + 1) v [.node 2] = some ([.aboveRoot], v) := by
  intro n t v cs
  have h : t.Reachable := (Reachable.ofRoot n).afterCalls
  have hv : v.Ready t.size := .ofSize
  have ⟨hall, hone⟩ := h.step_descendants_perm hv le_rfl
  have ⟨found, v', level, hf, hl, hp⟩ := hall cs
  have ⟨ids, _, _, _, hm, hu⟩ := hone .aboveRoot
  have hlevel : ∀ k, level k = ((t.stepTimes .wildcard k v cs).map Prod.fst).getD [] :=
    fun k => by rw [hl]; rfl
  have habove : Cursor.aboveRoot.IsAbove t 2 := show 2 < t.size by decide
  refine ⟨h, hv, ⟨found, v', hf, ?found⟩, habove, ?up⟩
  case found =>
    have hlevels : (List.range' 1 t.size).flatMap level =
        [.node 2, .node 0, .node 2, .node 1, .node 2] := by
      rw [funext hlevel]
      decide +kernel
    exact hp.trans <| .of_eq hlevels
  case up    =>
    have hi : 2 ∈ ids := (hm 2).mpr habove
    exact hu (.node 2) habove |>.mp <| List.mem_map_of_mem hi

end Tree
end TreeQuery
