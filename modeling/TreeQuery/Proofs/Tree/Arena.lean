import Mathlib.Data.List.Nodup
import Mathlib.Logic.Function.Iterate
import TreeQuery.Proofs.Tree.Ownership
import TreeQuery.Proofs.Tree.Traversal

-- Nothing here relies on how trees grow: the links of an arena may form cycles, lead to the same
-- node several times, or lead out of the arena.
namespace TreeQuery

namespace Visits

variable {v : Visits} {id j size : Nat}

-- As a traversal begins, the table has an entry for each of the first `size` ids, and none of them
-- has been reached.
structure Begun (v : Visits) (size : Nat) : Prop where
  size_eq : v.stamps.size = size
  isOpen  : ∀ {id}, id < size → v.isOpen id

namespace Begun

theorem newRound (hv : v.Ready size) : v.newRound.Begun size where
  size_eq := hv.newRound.size_eq
  isOpen  := hv.isOpen_newRound

theorem isOpen_iff (hv : v.Begun size) : v.isOpen id ↔ id < size where
  mp h := hv.size_eq ▸ lt_size_of_isOpen h
  mpr  := hv.isOpen

end Begun

theorem isOpen_mark_iff : (v.mark j).isOpen id ↔ id ≠ j ∧ v.isOpen id := by
  by_cases h : id = j
  case neg => simp [isOpen_mark_of_ne h, h]
  case pos =>
    subst h
    refine iff_of_false ?_ fun h => h.left rfl
    intro ho
    have ⟨_, hr⟩ := isOpen_iff.mp ho
    simp [mark] at hr

end Visits

namespace Tree

open Relation (ReflTransGen TransGen)

variable {t : Tree} {v : Visits} {stack stack' : List Nat} {id s j : Nat}

theorem collect_nil : t.collect v [] = ([], v) := by
  rw [collect]

theorem collect_cons_of_isOpen (h : v.isOpen id) :
    t.collect v (id :: stack) =
      (id :: (t.collect (v.mark id) (t.children id ++ stack)).1,
        (t.collect (v.mark id) (t.children id ++ stack)).2) := by
  rw [collect, if_pos h]

theorem collect_cons_of_not_isOpen (h : ¬v.isOpen id) :
    t.collect v (id :: stack) = t.collect v stack := by
  rw [collect, if_neg h]

theorem isOpen_of_mem_collect (h : j ∈ (t.collect v stack).1) : v.isOpen j := by
  induction v, stack using collect.induct t
  case case1 => simp [collect_nil] at h
  case case2 ho _ _ _ hi =>
    rw [collect_cons_of_isOpen ho] at h
    cases h
    case head   => exact ho
    case tail h => exact (Visits.isOpen_mark_iff.mp <| hi h).right
  case case3 ho hi => exact hi <| collect_cons_of_not_isOpen ho ▸ h

-- A node is marked as it is listed, and a marked node is not listed.
theorem nodup_collect : (t.collect v stack).1.Nodup := by
  induction v, stack using collect.induct t
  case case1 => simp [collect_nil]
  case case2 ho _ _ _ hi =>
    rw [collect_cons_of_isOpen ho]
    refine List.nodup_cons.mpr ⟨fun hm => ?_, hi⟩
    exact (Visits.isOpen_mark_iff.mp <| isOpen_of_mem_collect hm).left rfl
  case case3 ho hi => rwa [collect_cons_of_not_isOpen ho]

-- From `s` the links lead to `j` by nodes that have not been reached yet, both ends included.
structure OpenWay (t : Tree) (v : Visits) (s j : Nat) : Prop where
  isOpen : v.isOpen s
  way    : ReflTransGen (fun parent id => t.Down parent id ∧ v.isOpen id) s j

namespace OpenWay

theorem refl (h : v.isOpen s) : t.OpenWay v s s :=
  ⟨h, .refl⟩

theorem tail (h : t.OpenWay v s id) (hd : t.Down id j) (hj : v.isOpen j) : t.OpenWay v s j :=
  ⟨h.isOpen, h.way.tail ⟨hd, hj⟩⟩

theorem of_mark (h : t.OpenWay (v.mark id) s j) : t.OpenWay v s j where
  isOpen := (Visits.isOpen_mark_iff.mp h.isOpen).right
  way    := h.way.lift (·) fun _ _ hd => hd.imp_right fun ho => (Visits.isOpen_mark_iff.mp ho).right

-- An open way goes by `id`, and then it goes on from one of its children, or it does not meet `id`.
theorem exists_mark (h : t.OpenWay v s j) (hs : s ∈ id :: stack) :
    j = id ∨ ∃ s ∈ t.children id ++ stack, t.OpenWay (v.mark id) s j := by
  have hmark {k} (hk : k ≠ id) (ho : v.isOpen k) : (v.mark id).isOpen k :=
    Visits.isOpen_mark_iff.mpr ⟨hk, ho⟩
  induction h.way
  case refl =>
    by_cases he : s = id
    case pos => exact .inl he
    case neg =>
      have hm := (List.mem_cons.mp hs).resolve_left he
      exact .inr ⟨s, List.mem_append_right _ hm, .refl <| hmark he h.isOpen⟩
  case tail k j hw hd hi =>
    by_cases he : j = id
    case pos => exact .inl he
    case neg =>
      have hj := hmark he hd.right
      cases hi ⟨h.isOpen, hw⟩
      case inl hk => exact .inr ⟨j, List.mem_append_left _ <| hk ▸ hd.left, .refl hj⟩
      case inr hk =>
        have ⟨s, hs, hk⟩ := hk
        exact .inr ⟨s, hs, hk.tail hd.left hj⟩

end OpenWay

theorem exists_openWay_cons_iff (ho : v.isOpen id) :
    (∃ s ∈ id :: stack, t.OpenWay v s j) ↔
      j = id ∨ ∃ s ∈ t.children id ++ stack, t.OpenWay (v.mark id) s j := by
  constructor
  case mp =>
    intro ⟨s, hs, h⟩
    exact h.exists_mark hs
  case mpr =>
    rintro (rfl | ⟨s, hs, h⟩)
    case inl => exact ⟨j, .head _, .refl ho⟩
    case inr =>
      cases List.mem_append.mp hs
      case inr hs => exact ⟨s, .tail _ hs, h.of_mark⟩
      case inl hs =>
        have hd : t.Down id s := hs
        have hw : ReflTransGen (fun parent id => t.Down parent id ∧ v.isOpen id) id j :=
          .head ⟨hd, h.of_mark.isOpen⟩ h.of_mark.way
        exact ⟨id, .head _, ho, hw⟩

-- What a traversal lists is what can still be reached from its stack.
theorem mem_collect_iff : j ∈ (t.collect v stack).1 ↔ ∃ s ∈ stack, t.OpenWay v s j := by
  induction v, stack using collect.induct t
  case case1 => simp [collect_nil]
  case case2 ho _ _ _ hi =>
    rw [collect_cons_of_isOpen ho, List.mem_cons, hi, exists_openWay_cons_iff ho]
  case case3 v id _ ho hi =>
    have hn : ¬t.OpenWay v id j := fun h => ho h.isOpen
    rw [collect_cons_of_not_isOpen ho, hi]
    simp [hn]

-- A link leads on only from nodes of the arena, so on the way to a node of the arena there are no
-- others.
theorem openWay_iff (hv : v.Begun t.size) :
    t.OpenWay v s j ↔ j < t.size ∧ ReflTransGen t.Down s j := by
  constructor
  case mp =>
    intro ⟨ho, hw⟩
    refine ⟨?_, hw.lift (·) fun _ _ hd => hd.left⟩
    cases hw.cases_tail
    case inl h => exact h ▸ hv.isOpen_iff.mp ho
    case inr h =>
      have ⟨_, _, hd⟩ := h
      exact hv.isOpen_iff.mp hd.right
  case mpr =>
    intro ⟨hj, hw⟩
    induction hw
    case refl => exact .refl <| hv.isOpen hj
    case tail hd hi => exact (hi <| lt_size_of_mem_children hd).tail hd <| hv.isOpen hj

theorem mem_collect_begun_iff (hv : v.Begun t.size) :
    j ∈ (t.collect v stack).1 ↔ j < t.size ∧ ∃ s ∈ stack, ReflTransGen t.Down s j := by
  rw [mem_collect_iff]
  constructor
  case mp =>
    intro ⟨s, hs, h⟩
    have ⟨hj, hw⟩ := openWay_iff hv |>.mp h
    exact ⟨hj, s, hs, hw⟩
  case mpr =>
    intro ⟨hj, s, hs, hw⟩
    exact ⟨s, hs, openWay_iff hv |>.mpr ⟨hj, hw⟩⟩

-- Walks from several nodes, one after the other, that share one table.
def collectEach (t : Tree) (v : Visits) : List Nat → List Nat × Visits
  | []          => ([], v)
  | id :: stack =>
    let (ids, v₁)  := t.collect v [id]
    let (rest, v₂) := t.collectEach v₁ stack
    (ids ++ rest, v₂)

theorem collect_append :
    t.collect v (stack ++ stack') =
      ((t.collect v stack).1 ++ (t.collect (t.collect v stack).2 stack').1,
        (t.collect (t.collect v stack).2 stack').2) := by
  induction v, stack using collect.induct t
  case case1 => simp [collect_nil]
  case case2 ho _ _ _ hi =>
    rw [List.cons_append, collect_cons_of_isOpen ho, collect_cons_of_isOpen ho, ←List.append_assoc,
      hi, List.cons_append]
  case case3 ho hi =>
    rw [List.cons_append, collect_cons_of_not_isOpen ho, collect_cons_of_not_isOpen ho, hi]

theorem collectEach_eq_collect : t.collectEach v stack = t.collect v stack := by
  induction stack generalizing v
  case nil => rw [collectEach, collect_nil]
  case cons id stack hi =>
    simp only [collectEach, hi]
    exact (@collect_append t v [id] stack).symm

-- The loop over the stack, turn by turn: the next node is taken from the stack, and if it has not
-- been reached before, it is listed and its children take its place.
structure Loop where
  visits : Visits
  stack  : List Nat
  listed : List Nat

def Loop.turn (t : Tree) (l : Loop) : Loop :=
  match l.stack with
  | []          => l
  | id :: stack =>
    if l.visits.isOpen id then
      { visits := l.visits.mark id, stack := t.children id ++ stack, listed := l.listed ++ [id] }
    else
      { l with stack }

-- The loop ends: each node on the stack takes one turn, and so does each child of a listed node.
theorem turns_eq_collect (listed : List Nat) :
    (Loop.turn t)^[stack.length + ((t.collect v stack).1.flatMap t.children).length]
        ⟨v, stack, listed⟩ =
      ⟨(t.collect v stack).2, [], listed ++ (t.collect v stack).1⟩ := by
  induction v, stack using collect.induct t generalizing listed
  case case1 => simp [collect_nil]
  case case2 v id stack ho _ _ _ hi =>
    have hn (n : Nat) : (id :: stack).length + ((t.children id).length + n) =
        (t.children id ++ stack).length + n + 1 := by
      simp only [List.length_cons, List.length_append]
      omega
    have hi := hi (listed ++ [id])
    rw [List.append_assoc] at hi
    rw [collect_cons_of_isOpen ho, List.flatMap_cons, List.length_append, hn,
      Function.iterate_succ_apply]
    simpa [Loop.turn, ho] using hi
  case case3 v id stack ho hi =>
    rw [collect_cons_of_not_isOpen ho, List.length_cons, Nat.add_right_comm,
      Function.iterate_succ_apply]
    simpa [Loop.turn, ho] using hi listed

-- Whatever the links are, a walk from a node lists the nodes of the arena that can be reached from
-- it, each once, and a walk from its children, one after the other, lists those that can be reached
-- by at least one link. No walk goes on forever, in whatever state it finds the table.
theorem collect_lists_reached (hv : v.Begun t.size) (start : Nat) :
    ((t.collect v [start]).1.Nodup ∧
      ∀ j, j ∈ (t.collect v [start]).1 ↔ j < t.size ∧ ReflTransGen t.Down start j) ∧
    ((t.collect v (t.children start)).1.Nodup ∧
      ∀ j, j ∈ (t.collect v (t.children start)).1 ↔ j < t.size ∧ TransGen t.Down start j) ∧
    (t.collect v (t.children start) = t.collectEach v (t.children start)) ∧
    ∀ v stack, ∃ n, (Loop.turn t)^[n] ⟨v, stack, []⟩ =
      ⟨(t.collect v stack).2, [], (t.collect v stack).1⟩ := by
  refine ⟨⟨nodup_collect, fun j => ?at_or_below⟩, ⟨nodup_collect, fun j => ?below⟩, ?each, ?turns⟩
  case at_or_below => simp [mem_collect_begun_iff hv]
  case below       =>
    rw [mem_collect_begun_iff hv, TransGen.head'_iff]
    rfl
  case each        => exact collectEach_eq_collect.symm
  case turns       => exact fun v stack => ⟨_, by simpa using turns_eq_collect (t := t) []⟩

-- A cycle, a node that is linked twice, and a link out of the arena.
theorem collect_lists_reached_on_cycle :
    let node (children : List Nat) : Node := ⟨"", none, none, none, .empty, children, none⟩
    let t : Tree := ⟨#[node [1], node [2, 2, 7], node [0, 2], node [1]]⟩
    let v := (Visits.ofTree t).newRound
    v.Begun t.size ∧ (t.collect v [0]).1 = [0, 1, 2] ∧ (t.collect v (t.children 0)).1 = [1, 2, 0] ∧
      TransGen t.Down 0 0 ∧ ¬ReflTransGen t.Down 0 3 := by
  intro node t v
  have hv : v.Begun t.size := .newRound .ofSize
  have hall : (t.collect v [0]).1 = [0, 1, 2] := by cbv
  have hbelow : (t.collect v (t.children 0)).1 = [1, 2, 0] := by cbv
  obtain ⟨⟨_, hr⟩, ⟨_, ht⟩, _⟩ := collect_lists_reached hv 0
  refine ⟨hv, hall, hbelow, (ht 0 |>.mp <| by simp [hbelow]).right, fun h => ?_⟩
  have hm := hr 3 |>.mpr ⟨by decide, h⟩
  simp [hall] at hm

end Tree
end TreeQuery
