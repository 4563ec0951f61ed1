import Mathlib.Data.Set.Function
import TreeQuery.Proofs.Tree.Preorder

namespace TreeQuery.Tree

-- The trees have the same shape, and `f` leads from each node of the first to its counterpart. The
-- ids of the nodes, and with them the order in which the nodes were added, may differ.
structure Isomorphic (t u : Tree) (f : Nat → Nat) : Prop where
  bijOn    : Set.BijOn f { id | id < t.size } { id | id < u.size }
  root     : f t.root = u.root
  children : ∀ {id}, id < t.size → u.children (f id) = (t.children id).map f

namespace Isomorphic

variable {t u : Tree} {f : Nat → Nat} {id j : Nat}

theorem lt_size (h : t.Isomorphic u f) (hi : id < t.size) : f id < u.size :=
  h.bijOn.mapsTo hi

theorem inj (h : t.Isomorphic u f) (hi : id < t.size) (hj : j < t.size) : f id = f j ↔ id = j :=
  h.bijOn.injOn.eq_iff hi hj

theorem parent? (h : t.Isomorphic u f) (ht : t.WellFormed) (hu : u.WellFormed) (hi : id < t.size) :
    u.parent? (f id) = (t.parent? id).map f := by
  match hp : t.parent? id with
  | some p =>
    have hc : id ∈ t.children p := ht.mem_children_iff.mpr hp
    refine hu.mem_children_iff.mp ?_
    rw [h.children <| lt_size_of_mem_children hc]
    exact List.mem_map_of_mem hc
  | none   =>
    rw [ht.parent?_eq_none_iff hi |>.mp hp, h.root, hu.parent?_root, Option.map_none]

theorem preorder (h : t.Isomorphic u f) (ht : t.WellFormed) (hu : u.WellFormed)
    (hi : id < t.size) : u.preorder (f id) = (t.preorder id).map f := by
  induction id using preorder.induct t
  case case1 id hr =>
    have hc : (t.children id).flatMap (u.preorder <| f ·) =
        (t.children id).flatMap fun c => (t.preorder c).map f := by
      apply List.flatMap_congr
      intro c hc
      have hb := ht.mem_children_lt_size hc
      exact hr c ⟨ht.lt_of_mem_children hc, hb⟩ hb
    rw [hu.preorder_eq, ht.preorder_eq, h.children hi, List.flatMap_map, hc, List.map_cons,
      List.map_flatMap]

end Isomorphic
end TreeQuery.Tree
