import Mathlib.Data.List.Nodup
import Mathlib.Logic.Relation
import TreeQuery.Proofs.Tree.Growth

namespace TreeQuery.Tree

-- A call to add a child to a tree that is changed in place: its answer, and the tree that the next
-- call finds. A call that fails leaves the tree to the next call as it was.
def call (t : Tree) (parent : Nat) (n : Node) : Except ForeignParent Nat × Tree :=
  match t.addChild parent n with
  | .ok (id, t') => (.ok id, t')
  | .error e     => (.error e, t)

def afterCalls (t : Tree) (calls : List (Nat × Node)) : Tree :=
  calls.foldl (fun t (parent, n) => (t.call parent n).2) t

def Down (t : Tree) (parent id : Nat) : Prop :=
  id ∈ t.children parent

open Relation (ReflTransGen)

variable {t : Tree} {n : Node} {id parent : Nat} {calls : List (Nat × Node)}

theorem call_of_lt_size (h : parent < t.size) :
    t.call parent n = (.ok t.size, t.attach parent n) := by
  simp [call, addChild, h]

theorem call_of_size_le (h : t.size ≤ parent) : t.call parent n = (.error ⟨parent⟩, t) := by
  simp [call, addChild, not_lt.mpr h]

theorem afterCalls_append {calls' : List (Nat × Node)} :
    t.afterCalls (calls ++ calls') = (t.afterCalls calls).afterCalls calls' :=
  List.foldl_append

theorem Reachable.call (h : t.Reachable) : (t.call parent n).2.Reachable := by
  rcases lt_or_ge parent t.size with hp | hp
  case inl => rw [call_of_lt_size hp]; exact h.attach hp
  case inr => rw [call_of_size_le hp]; exact h

theorem Reachable.afterCalls (h : t.Reachable) : (t.afterCalls calls).Reachable := by
  induction calls generalizing t
  case nil        => exact h
  case cons hi => exact hi h.call

-- The trees that can be built are those that calls lead to, failed calls included.
theorem reachable_iff_exists_calls :
    t.Reachable ↔ ∃ n calls, t = (ofRoot n).afterCalls calls := by
  constructor <;> intro h
  case mp =>
    induction h
    case ofRoot n => exact ⟨n, [], rfl⟩
    case addChild parent _ m _ ha hi =>
      have ⟨hp, _, ht⟩ := addChild_eq_ok_iff.mp ha
      have ⟨n, calls, he⟩ := hi
      refine ⟨n, calls ++ [(parent, m)], ?_⟩
      rw [afterCalls_append, ←he, ht]
      exact (congrArg Prod.snd <| call_of_lt_size hp).symm
  case mpr =>
    have ⟨n, _, ht⟩ := h
    exact ht ▸ (Reachable.ofRoot n).afterCalls

namespace WellFormed

-- Each node but the root is owned by its parent: it is there once, and nowhere else.
theorem count_children (hw : t.WellFormed) (h : id < t.size) (hr : id ≠ t.root) :
    ∃ p, (t.children p).count id = 1 ∧ ∀ q, q ≠ p → id ∉ t.children q := by
  have ⟨p, hp⟩ := hw.exists_parent h hr
  refine ⟨p, ?once, fun q hq hm => ?elsewhere⟩
  case once =>
    have hn : (t.children p).Nodup := (hw.children_sorted p).imp ne_of_lt
    exact List.count_eq_one_of_mem hn <| hw.mem_children_iff.mpr hp
  case elsewhere =>
    have hm := hp.symm.trans <| hw.mem_children_iff.mp hm
    exact hq (Option.some.inj hm).symm

-- The parent of a node has a smaller id, so the way up ends at the root.
theorem down_from_root (hw : t.WellFormed) (h : id < t.size) : ReflTransGen t.Down t.root id := by
  induction id using Nat.strong_induction_on
  case _ id hi =>
    by_cases hr : id = t.root
    case pos => exact hr ▸ .refl
    case neg =>
      have ⟨p, hp⟩ := hw.exists_parent h hr
      have hl := hw.parent_lt hp
      exact (hi p hl (hl.trans h)).tail <| hw.mem_children_iff.mpr hp

end WellFormed

-- Whatever calls a tree has been through, failed ones included, and whatever links the added nodes
-- carry from elsewhere: links up and down agree, each node is owned once and found from the root.
theorem links_afterCalls (n : Node) (calls : List (Nat × Node)) :
    let t := (ofRoot n).afterCalls calls
    0 < t.size ∧
    t.parent? t.root = none ∧
    (∀ id, id < t.size → id ≠ t.root → ∃ p, t.parent? id = some p ∧ p < id) ∧
    (∀ id p, id ∈ t.children p ↔ t.parent? id = some p) ∧
    (∀ p, (t.children p).Pairwise (· < ·)) ∧
    (∀ id, id < t.size → id ≠ t.root →
      ∃ p, (t.children p).count id = 1 ∧ ∀ q, q ≠ p → id ∉ t.children q) ∧
    (∀ id, id < t.size → ReflTransGen t.Down t.root id) ∧
    (∀ parent m, parent < t.size →
      ∃ t', t.call parent m = (.ok t.size, t') ∧ t'.size = t.size + 1 ∧
        t'.parent? t.size = some parent) ∧
    (∀ parent m, t.size ≤ parent → t.call parent m = (.error ⟨parent⟩, t)) := by
  intro t
  have hw : t.WellFormed := (reachable_iff_exists_calls.mpr ⟨n, calls, rfl⟩).wellFormed
  refine ⟨hw.root_lt, hw.parent?_root, ?parents, fun _ _ => hw.mem_children_iff, hw.children_sorted,
    fun _ => hw.count_children, fun _ => hw.down_from_root, ?success, fun _ _ => call_of_size_le⟩
  case parents =>
    intro id h hr
    have ⟨p, hp⟩ := hw.exists_parent h hr
    exact ⟨p, hp, hw.parent_lt hp⟩
  case success =>
    intro parent m h
    exact ⟨_, call_of_lt_size h, size_attach, parent?_attach.trans <| if_pos rfl⟩

-- The root and both nodes that get in carry links, none of which fits the tree.
theorem links_afterCalls_stale :
    let n : Node := ⟨"a", none, none, none, .empty, [4, 2], some 7⟩
    let t := (ofRoot n).afterCalls [(0, n), (5, n), (1, n)]
    t.size = 3 ∧ t.parent? t.root = none ∧
      (∃ p, t.parent? 2 = some p ∧ p < 2) ∧
      (∃ p, (t.children p).count 2 = 1 ∧ ∀ q, q ≠ p → 2 ∉ t.children q) ∧
      ReflTransGen t.Down t.root 2 ∧
      (∃ t', t.call 2 n = (.ok 3, t') ∧ t'.size = 4 ∧ t'.parent? 3 = some 2) ∧
      t.call 5 n = (.error ⟨5⟩, t) := by
  intro n t
  have hs : t.size = 3 := rfl
  have hr : 2 ≠ t.root := by decide
  have ⟨_, hroot, hparent, _, _, hcount, hdown, hsuccess, hfailure⟩ :=
    links_afterCalls n [(0, n), (5, n), (1, n)]
  exact ⟨hs, hroot, hparent 2 (by decide) hr, hcount 2 (by decide) hr, hdown 2 (by decide),
    hsuccess 2 n (by decide), hfailure 5 n (by decide)⟩

end TreeQuery.Tree
