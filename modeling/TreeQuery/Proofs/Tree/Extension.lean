import Mathlib.Data.List.Flatten
import TreeQuery.Proofs.Tree.Preorder

namespace TreeQuery

theorem sublist_flatMap {α β : Type} {f g : α → List β} {xs ys : List α} (h : xs.Sublist ys)
    (hf : ∀ x ∈ xs, (f x).Sublist (g x)) : (xs.flatMap f).Sublist (ys.flatMap g) :=
  (List.Sublist.flatMap_right xs hf).trans (h.flatMap g)

namespace Tree

-- The first tree has all nodes of the second one. They are what they were, except that there can be
-- new nodes among their children.
def Extends (u t : Tree) : Prop :=
  ∀ {id m}, t.get? id = some m →
    ∃ ids, m.children.Sublist ids ∧ u.get? id = some { m with children := ids }

namespace Extends

variable {t u : Tree} {n : Node} {id parent : Nat}

theorem attach : (t.attach parent n).Extends t := by
  intro id m hm
  have hb : id < t.size := by
    by_contra hb
    simp [get?_eq_none_iff.mpr (not_lt.mp hb)] at hm
  rw [get?_attach_of_lt hb, hm, Option.map_some]
  split
  case isTrue  => exact ⟨_, List.sublist_append_left .., rfl⟩
  case isFalse => exact ⟨_, .refl _, rfl⟩

theorem exists_get? (h : u.Extends t) (hi : id < t.size) :
    ∃ m ids, t.get? id = some m ∧ m.children.Sublist ids ∧
      u.get? id = some { m with children := ids } :=
  have ⟨m, hm⟩ := exists_get?_of_lt_size hi
  have ⟨ids, hs, hu⟩ := h hm
  ⟨m, ids, hm, hs, hu⟩

theorem parent?_eq (h : u.Extends t) (hi : id < t.size) : u.parent? id = t.parent? id := by
  have ⟨_, _, hm, _, hu⟩ := h.exists_get? hi
  simp [parent?, hm, hu]

theorem children_sublist (h : u.Extends t) : (t.children id).Sublist (u.children id) := by
  rcases lt_or_ge id t.size with hi | hi
  case inl =>
    have ⟨_, _, hm, hs, hu⟩ := h.exists_get? hi
    simpa [children, hm, hu] using hs
  case inr => simp [children_eq_nil_of_size_le hi]

theorem preorder_sublist (h : u.Extends t) (ht : t.WellFormed) (hu : u.WellFormed) :
    (t.preorder id).Sublist (u.preorder id) := by
  induction id using preorder.induct t
  case case1 id hi =>
    rw [ht.preorder_eq, hu.preorder_eq]
    refine .cons_cons id ?_
    exact sublist_flatMap h.children_sublist fun c hc =>
      hi c ⟨ht.lt_of_mem_children hc, ht.mem_children_lt_size hc⟩

end Extends
end Tree
end TreeQuery
