import Mathlib.Data.List.Nodup
import Mathlib.Logic.Relation
import TreeQuery.Proofs.Tree.Growth

namespace TreeQuery.Tree

-- A node, and behind it everything at and below its first child, then everything at and below its
-- second child, and so on. Links that no tree has, to smaller ids or out of the arena, are not
-- followed.
def preorder (t : Tree) (id : Nat) : List Nat :=
  id :: (t.children id).flatMap fun c => if id < c ∧ c < t.size then t.preorder c else []
termination_by t.size - id

def Up (t : Tree) (id parent : Nat) : Prop :=
  t.parent? id = some parent

open Relation (ReflTransGen)

variable {t : Tree} {id c d j : Nat}

theorem up_rightUnique : Relator.RightUnique t.Up := by
  intro _ _ _ h h'
  exact Option.some.inj <| h.symm.trans h'

namespace WellFormed

theorem preorder_eq (hw : t.WellFormed) :
    t.preorder id = id :: (t.children id).flatMap t.preorder := by
  rw [preorder]
  congr 1
  apply List.flatMap_congr
  intro c hc
  exact if_pos ⟨hw.lt_of_mem_children hc, hw.mem_children_lt_size hc⟩

theorem le_of_up (hw : t.WellFormed) (h : ReflTransGen t.Up j id) : id ≤ j := by
  induction h
  case refl         => exact le_rfl
  case tail hu hi   => exact (hw.parent_lt hu).le.trans hi

theorem mem_preorder_iff (hw : t.WellFormed) : j ∈ t.preorder id ↔ ReflTransGen t.Up j id := by
  constructor <;> intro h
  case mp =>
    induction id using preorder.induct t
    case case1 id hi =>
      rw [hw.preorder_eq, List.mem_cons, List.mem_flatMap] at h
      cases h
      case inl h => exact h ▸ .refl
      case inr h =>
        have ⟨c, hc, h⟩ := h
        have hi := hi c ⟨hw.lt_of_mem_children hc, hw.mem_children_lt_size hc⟩ h
        exact hi.tail <| hw.mem_children_iff.mp hc
  case mpr =>
    induction h
    case refl => rw [hw.preorder_eq]; exact .head _
    case tail hu hi =>
      rw [hw.preorder_eq]
      exact .tail _ <| List.mem_flatMap.mpr ⟨_, hw.mem_children_iff.mpr hu, hi⟩

theorem le_of_mem_preorder (hw : t.WellFormed) (h : j ∈ t.preorder id) : id ≤ j :=
  hw.le_of_up <| hw.mem_preorder_iff.mp h

theorem lt_size_of_mem_preorder (hw : t.WellFormed) (hb : id < t.size) (h : j ∈ t.preorder id) :
    j < t.size := by
  cases (hw.mem_preorder_iff.mp h).cases_head
  case inl h => exact h ▸ hb
  case inr h =>
    have ⟨_, hu, _⟩ := h
    exact lt_size_of_parent?_eq_some hu

-- Of two chains upwards from a common node one is a part of the other, so a node that is listed
-- below two children of one node would put one child above the other.
theorem disjoint_preorder (hw : t.WellFormed)
    (hc : c ∈ t.children id) (hd : d ∈ t.children id) (hn : c ≠ d) :
    (t.preorder c).Disjoint (t.preorder d) := by
  have h_not_above {c d} (hc : c ∈ t.children id) (hd : d ∈ t.children id) (hn : c ≠ d) :
      ¬ReflTransGen t.Up c d := by
    intro h
    cases h.cases_head
    case inl h => exact hn h
    case inr h =>
      have ⟨p, hp, h⟩ := h
      have hp : p = id := up_rightUnique hp <| hw.mem_children_iff.mp hc
      exact (hp ▸ hw.le_of_up h).not_gt <| hw.lt_of_mem_children hd
  intro j hj hj'
  have hj  := hw.mem_preorder_iff.mp hj
  have hj' := hw.mem_preorder_iff.mp hj'
  cases hj.total_of_right_unique up_rightUnique hj'
  case inl h => exact h_not_above hc hd hn h
  case inr h => exact h_not_above hd hc hn.symm h

theorem nodup_preorder (hw : t.WellFormed) : (t.preorder id).Nodup := by
  induction id using preorder.induct t
  case case1 id hi =>
    rw [hw.preorder_eq]
    refine List.nodup_cons.mpr ⟨?not_below, List.nodup_flatMap.mpr ⟨?each, ?apart⟩⟩
    case not_below =>
      intro h
      have ⟨c, hc, h⟩ := List.mem_flatMap.mp h
      exact (hw.le_of_mem_preorder h).not_gt <| hw.lt_of_mem_children hc
    case each =>
      intro c hc
      exact hi c ⟨hw.lt_of_mem_children hc, hw.mem_children_lt_size hc⟩
    case apart =>
      have hs := hw.children_sorted id
      exact hs.imp_of_mem fun hc hd h => hw.disjoint_preorder hc hd h.ne

theorem nodup_below (hw : t.WellFormed) : ((t.children id).flatMap t.preorder).Nodup :=
  (List.nodup_cons.mp <| hw.preorder_eq ▸ hw.nodup_preorder).right

end WellFormed
end TreeQuery.Tree
