import Mathlib.Data.List.Flatten
import Mathlib.Data.List.Perm.Basic
import TreeQuery.Proofs.Tree.Extension
import TreeQuery.Proofs.Tree.Ownership

namespace TreeQuery.Tree

-- The nodes `k` levels below a node, in order.
def generation (t : Tree) : Nat → Nat → List Nat
  | 0,     id => [id]
  | k + 1, id => (t.children id).flatMap (t.generation k)

-- The number of links from a node up to the root. A link to a larger id, which no tree has, is not
-- followed.
def depth (t : Tree) (id : Nat) : Nat :=
  match t.parent? id with
  | none   => 0
  | some p => if p < id then t.depth p + 1 else 0
termination_by id

open Relation (ReflTransGen)

variable {t : Tree} {id j k n : Nat} {ids : List Nat}

-- The children of a generation are the next one.
theorem generation_succ : t.generation (k + 1) id = (t.generation k id).flatMap t.children := by
  induction k generalizing id
  case zero => simp [generation]
  case succ k hi =>
    rw [generation, generation, List.flatMap_assoc]
    exact List.flatMap_congr fun _ _ => hi

namespace WellFormed

theorem mem_preorder_root_iff (hw : t.WellFormed) : id ∈ t.preorder t.root ↔ id < t.size := by
  refine ⟨hw.lt_size_of_mem_preorder hw.root_lt, fun h => hw.mem_preorder_iff.mpr ?_⟩
  exact ReflTransGen.mono (fun _ _ => hw.mem_children_iff.mp) _ _ (hw.down_from_root h).swap

theorem depth_of_up (hw : t.WellFormed) (h : t.Up id j) : t.depth id = t.depth j + 1 := by
  have hp : t.parent? id = some j := h
  rw [depth, hp]
  exact if_pos <| hw.parent_lt hp

theorem depth_of_mem_generation (hw : t.WellFormed) (h : j ∈ t.generation k id) :
    t.depth j = t.depth id + k := by
  induction k generalizing j
  case zero => rw [List.mem_singleton.mp h, Nat.add_zero]
  case succ k hi =>
    rw [generation_succ] at h
    have ⟨p, hp, hj⟩ := List.mem_flatMap.mp h
    rw [hw.depth_of_up <| hw.mem_children_iff.mp hj, hi hp, Nat.add_assoc]

theorem below_sublist_preorder (hw : t.WellFormed) :
    ((t.children id).flatMap t.preorder).Sublist (t.preorder id) := by
  rw [hw.preorder_eq]
  exact List.sublist_cons_self ..

theorem generation_sublist_preorder (hw : t.WellFormed) :
    (t.generation k id).Sublist (t.preorder id) := by
  induction k generalizing id
  case zero =>
    rw [hw.preorder_eq]
    exact (List.nil_sublist _).cons_cons id
  case succ k hi =>
    exact (sublist_flatMap (.refl _) fun _ _ => hi).trans hw.below_sublist_preorder

-- No two nodes of a generation have a node below them in common.
theorem nodup_generation_flatMap_preorder (hw : t.WellFormed) :
    ((t.generation k id).flatMap t.preorder).Nodup := by
  induction k
  case zero => simpa [generation] using hw.nodup_preorder
  case succ k hi =>
    rw [generation_succ, List.flatMap_assoc]
    exact hi.sublist <| sublist_flatMap (.refl _) fun _ _ => hw.below_sublist_preorder

-- Everything at and below the given nodes, one generation after the other. From one generation to
-- the next the ids grow, so there are at most as many generations as ids.
theorem flatMap_preorder_perm (hw : t.WellFormed)
    (hb : ∀ id ∈ ids, id < t.size ∧ t.size ≤ id + n) :
    (ids.flatMap t.preorder).Perm <|
      (List.range n).flatMap fun k => ids.flatMap (t.generation k) := by
  induction n generalizing ids
  case zero =>
    have hn : ids = [] := List.eq_nil_iff_forall_not_mem.mpr fun id hi =>
      (hb id hi).left.not_ge (hb id hi).right
    rw [hn]
    exact .refl _
  case succ n hi =>
    have hc : ∀ c ∈ ids.flatMap t.children, c < t.size ∧ t.size ≤ c + n := by
      intro c hc
      have ⟨id, hm, hc⟩ := List.mem_flatMap.mp hc
      have hs := (hb id hm).right
      have hl := hw.lt_of_mem_children hc
      exact ⟨hw.mem_children_lt_size hc, by omega⟩
    have hp : t.preorder = fun id => [id] ++ (t.children id).flatMap t.preorder :=
      funext fun _ => hw.preorder_eq
    calc ids.flatMap t.preorder
      _ = ids.flatMap fun id => [id] ++ (t.children id).flatMap t.preorder :=
        congrArg ids.flatMap hp
      List.Perm _ (ids ++ (ids.flatMap t.children).flatMap t.preorder) := by
        rw [List.flatMap_assoc]
        simpa using (List.flatMap_append_perm ids ([·]) _).symm
      List.Perm _ _ := (hi hc).append_left ids
      _ = _ := by
        simp [List.range_succ_eq_map, List.flatMap_map, List.flatMap_assoc, generation]

end WellFormed
end TreeQuery.Tree
