import Mathlib.Data.List.Basic
import Mathlib.Order.Nat
import TreeQuery.Tree

namespace TreeQuery.Tree

-- The trees that can be built: they start as a single node and grow by one child at a time.
inductive Reachable : Tree → Prop
  | ofRoot (n : Node) : Reachable (.ofRoot n)
  | addChild {t t' : Tree} {parent id : Nat} {n : Node} :
    Reachable t → (t.addChild parent n = .ok (id, t')) → Reachable t'

-- Links down and links up agree, and every link down leads to a larger id. So the links are free of
-- cycles, and each node but the root is the child of exactly one node, once.
structure WellFormed (t : Tree) : Prop where
  root_lt          : t.root < t.size
  parent?_root     : t.parent? t.root = none
  exists_parent    : ∀ {id}, id < t.size → id ≠ t.root → ∃ p, t.parent? id = some p
  parent_lt        : ∀ {id p}, t.parent? id = some p → p < id
  mem_children_iff : ∀ {id p}, id ∈ t.children p ↔ t.parent? id = some p
  children_sorted  : ∀ id, (t.children id).Pairwise (· < ·)

variable {t t' : Tree} {n : Node} {id parent : Nat}

theorem addChild_eq_ok_iff :
    (t.addChild parent n = .ok (id, t')) ↔
      (parent < t.size ∧ id = t.size ∧ t' = t.attach parent n) := by
  by_cases h : parent < t.size <;> simp [addChild, h, eq_comm]

theorem get?_eq_none_iff : (t.get? id = none) ↔ (t.size ≤ id) := by
  simp [get?, size]

theorem exists_get?_of_lt_size (h : id < t.size) : ∃ m, t.get? id = some m :=
  ⟨t.nodes[id], Array.getElem?_eq_getElem h⟩

theorem children_eq_nil_of_size_le (h : t.size ≤ id) : t.children id = [] := by
  simp [children, get?_eq_none_iff.mpr h]

theorem parent?_eq_none_of_size_le (h : t.size ≤ id) : t.parent? id = none := by
  simp [parent?, get?_eq_none_iff.mpr h]

theorem lt_size_of_parent?_eq_some {p} (h : t.parent? id = some p) : id < t.size := by
  by_contra hc
  simp [parent?_eq_none_of_size_le (not_lt.mp hc)] at h

theorem lt_size_of_mem_children {c} (h : c ∈ t.children id) : id < t.size := by
  by_contra hc
  simp [children_eq_nil_of_size_le (not_lt.mp hc)] at h

theorem children_attach (hp : parent < t.size) :
    (t.attach parent n).children id =
      if id = parent then t.children id ++ [t.size] else t.children id := by
  rcases lt_trichotomy id t.size with h | h | h
  case inl =>
    simp only [children, get?_attach_of_lt h]
    cases hg : t.get? id
    case none   => exact absurd h <| not_lt.mpr <| get?_eq_none_iff.mp hg
    case some m => simp only [Option.map_some, Option.elim_some]; split <;> rfl
  case inr.inl =>
    have hn : id ≠ parent := h ▸ hp.ne'
    rw [if_neg hn, children_eq_nil_of_size_le h.ge, h]
    simp [children, get?_attach_size]
  case inr.inr =>
    have hn : id ≠ parent := (hp.trans h).ne'
    have hs : (t.attach parent n).size ≤ id := size_attach.trans_le h
    simp [hn, children_eq_nil_of_size_le hs, children_eq_nil_of_size_le h.le]

theorem parent?_attach :
    (t.attach parent n).parent? id = if id = t.size then some parent else t.parent? id := by
  rcases lt_trichotomy id t.size with h | h | h
  case inl =>
    simp only [parent?, get?_attach_of_lt h, h.ne, if_false]
    cases hg : t.get? id
    case none   => rfl
    case some m => simp only [Option.map_some, Option.bind_some]; split <;> rfl
  case inr.inl => simp [h, parent?, get?_attach_size]
  case inr.inr =>
    have hs : (t.attach parent n).size ≤ id := size_attach.trans_le h
    simp [h.ne', parent?_eq_none_of_size_le hs, parent?_eq_none_of_size_le h.le]

theorem parent?_ofRoot : (ofRoot n).parent? id = none := by
  cases id <;> rfl

theorem children_ofRoot : (ofRoot n).children id = [] := by
  cases id <;> rfl

namespace WellFormed

theorem ofRoot : (Tree.ofRoot n).WellFormed where
  root_lt            := Nat.one_pos
  parent?_root       := rfl
  exists_parent h hr := absurd (Nat.lt_one_iff.mp h) hr
  parent_lt h        := by simp [parent?_ofRoot] at h
  mem_children_iff   := by simp [parent?_ofRoot, children_ofRoot]
  children_sorted    := by simp [children_ofRoot]

theorem lt_of_mem_children {c} (hw : t.WellFormed) (h : c ∈ t.children id) : id < c :=
  hw.parent_lt <| hw.mem_children_iff.mp h

theorem mem_children_lt_size {c} (hw : t.WellFormed) (h : c ∈ t.children id) : c < t.size :=
  lt_size_of_parent?_eq_some <| hw.mem_children_iff.mp h

theorem parent?_eq_none_iff (hw : t.WellFormed) (hi : id < t.size) :
    t.parent? id = none ↔ id = t.root := by
  constructor
  case mpr => exact fun h => h ▸ hw.parent?_root
  case mp  =>
    intro h
    by_contra hr
    have ⟨p, hp⟩ := hw.exists_parent hi hr
    simp [h] at hp

theorem attach (hw : t.WellFormed) (hp : parent < t.size) : (t.attach parent n).WellFormed where
  root_lt := by
    rw [size_attach]
    exact hw.root_lt.trans <| Nat.lt_succ_self _
  parent?_root := by
    rw [parent?_attach]
    exact (if_neg hw.root_lt.ne).trans hw.parent?_root
  exists_parent {id} h hr := by
    rw [parent?_attach]
    split
    case isTrue    => exact ⟨parent, rfl⟩
    case isFalse h' =>
      rw [size_attach] at h
      exact hw.exists_parent (lt_of_le_of_ne (Nat.le_of_lt_succ h) h') hr
  parent_lt {id p} h := by
    rw [parent?_attach] at h
    split at h
    case isTrue h'  => cases h; exact h' ▸ hp
    case isFalse h' => exact hw.parent_lt h
  mem_children_iff {id p} := by
    have hs : t.size ∉ t.children p := fun h => (hw.mem_children_lt_size h).false
    rw [children_attach hp, parent?_attach]
    split <;> split
    case isTrue.isTrue h h'   => simp [h, h']
    case isFalse.isTrue h h'  => simp [h', hs, Ne.symm h]
    case isTrue.isFalse h'    => simp [h', hw.mem_children_iff]
    case isFalse.isFalse      => exact hw.mem_children_iff
  children_sorted id := by
    rw [children_attach hp]
    split
    case isFalse => exact hw.children_sorted id
    case isTrue  =>
      refine List.pairwise_append.mpr ⟨hw.children_sorted id, List.pairwise_singleton .., ?_⟩
      intro c hc s hs
      exact List.mem_singleton.mp hs ▸ hw.mem_children_lt_size hc

end WellFormed

theorem Reachable.attach (h : t.Reachable) (hp : parent < t.size) : (t.attach parent n).Reachable :=
  h.addChild <| addChild_eq_ok_iff.mpr ⟨hp, rfl, rfl⟩

theorem Reachable.wellFormed (h : t.Reachable) : t.WellFormed := by
  induction h
  case ofRoot => exact .ofRoot
  case addChild ha hi =>
    have ⟨hp, _, ht⟩ := addChild_eq_ok_iff.mp ha
    exact ht ▸ hi.attach hp

end TreeQuery.Tree
