import TreeQuery.Proofs.Query.Alternation
import TreeQuery.Proofs.Tree.Extension

namespace TreeQuery

theorem sublist_filter {α : Type} {p q : α → Bool} {xs ys : List α} (h : xs.Sublist ys)
    (hp : ∀ x ∈ xs, p x → q x) : (xs.filter p).Sublist (ys.filter q) := by
  have hf : (xs.filter q).filter p = xs.filter p := by
    rw [List.filter_filter]
    refine List.filter_congr fun x hx => ?_
    cases hx' : p x <;> simp [hx', hp x hx]
  exact hf ▸ List.filter_sublist.trans (h.filter q)

namespace Tree
namespace Extends

variable {t u : Tree} {id : Nat} {ids ids' : List Nat} {c : Cursor}

theorem hasName (h : u.Extends t) {name : String} (hi : id < t.size) :
    u.hasName name id = t.hasName name id := by
  have ⟨_, _, hm, _, hu⟩ := h.exists_get? hi
  simp [Tree.hasName, hm, hu]

-- A filter looks at none of the children of a node.
theorem passes (h : u.Extends t) {f : Option Filter} (hc : c.Within t) :
    c.passes u f = c.passes t f := by
  match c, f with
  | .aboveRoot, _      => rfl
  | .node _,    none   => rfl
  | .node id,   some f =>
    have ⟨m, ids, hm, _, hu⟩ := h.exists_get? hc
    have ha : f.accepts { m with children := ids } = f.accepts m := rfl
    simp [Cursor.passes, hm, hu, ha]

theorem below_sublist (h : u.Extends t) (ht : t.WellFormed) (hu : u.WellFormed)
    (hs : ids.Sublist ids') : (t.below ids).Sublist (u.below ids') :=
  sublist_flatMap hs fun _ _ => h.preorder_sublist ht hu

theorem cursor_children_sublist (h : u.Extends t) : (c.children t).Sublist (c.children u) := by
  cases c
  case node      => exact h.children_sublist
  case aboveRoot => exact .refl _

theorem cursor_parent?_eq (h : u.Extends t) (hc : c.Within t) : c.parent? u = c.parent? t := by
  cases c
  case node      => simp only [Cursor.parent?, h.parent?_eq hc]
  case aboveRoot => rfl

-- Each kind of step leads on to all nodes that it led to before.
theorem next_sublist (h : u.Extends t) (ht : t.WellFormed) (hu : u.WellFormed) (hc : c.Within t)
    (s : Step) : (c.next t t.below s).Sublist (c.next u u.below s) := by
  have hch : (c.children t).Sublist (c.children u) := h.cursor_children_sublist
  have hb : ∀ id ∈ c.children t, id < t.size := ht.lt_size_of_mem_cursor_children
  cases s <;> simp only [Cursor.next]
  case named       => exact (sublist_filter hch fun id hi => (h.hasName (hb id hi)).trans).map _
  case wildcard    => exact hch.map _
  case descendants => exact (h.below_sublist ht hu hch).map _
  case current     => exact .refl _
  case parent      => rw [h.cursor_parent?_eq hc]

theorem reach_sublist (h : u.Extends t) (ht : t.WellFormed) (hu : u.WellFormed) (hc : c.Within t)
    (path : List Segment) : (t.reach t.below path c).Sublist (u.reach u.below path c) := by
  induction path generalizing c
  case nil => exact .refl _
  case cons s path hi =>
    have hn : ∀ d ∈ c.next t t.below s.step, d.Within t :=
      ht.within_next (ht.lists le_rfl) hc s.step
    have hf := sublist_filter (h.next_sublist ht hu hc s.step) fun d hd =>
      (h.passes (f := s.filter) (hn d hd)).trans
    exact sublist_flatMap hf fun d hd => hi <| within_filter hn d hd

theorem starts_sublist (h : u.Extends t) (ht : t.WellFormed) (hu : u.WellFormed) (s : Step)
    (a : Anchor) : (t.starts t.below s a).Sublist (u.starts u.below s a) := by
  have hr : ∀ id ∈ [t.root], id < t.size := by simpa using ht.root_lt
  cases a
  case root =>
    cases s <;> simp only [starts]
    case named              =>
      exact sublist_filter (.refl _) fun id hi => (h.hasName (hr id hi)).trans
    case wildcard | current => exact .refl _
    case parent             => exact .refl _
    case descendants        => exact h.below_sublist ht hu h.children_sublist
  case anywhere =>
    have hs : (t.below [t.root]).Sublist (u.below [u.root]) := h.below_sublist ht hu (.refl _)
    have hb : ∀ id ∈ t.below [t.root], id < t.size := ht.lt_size_of_mem_flatMap_preorder hr
    cases s <;> simp only [starts]
    case named              => exact sublist_filter hs fun id hi => (h.hasName (hb id hi)).trans
    case wildcard | current => exact hs
    case descendants        => exact hs.filter _
    case parent             =>
      refine sublist_filter hs fun id _ hp => ?_
      simp only [Bool.not_eq_true', List.isEmpty_eq_false_iff] at hp ⊢
      exact fun hn => hp <| List.sublist_nil.mp <| hn ▸ h.children_sublist

theorem designated_sublist (h : u.Extends t) (ht : t.WellFormed) (hu : u.WellFormed)
    (a : Alternative) : (t.designated a).Sublist (u.designated a) := by
  have hc : ∀ c ∈ (t.starts t.below a.first.step a.anchor).map Cursor.node, c.Within t :=
    ht.within_starts <| ht.lists le_rfl
  have hs := sublist_filter ((h.starts_sublist ht hu a.first.step a.anchor).map Cursor.node)
    fun c hm => (h.passes (f := a.first.filter) (hc c hm)).trans
  exact (sublist_flatMap hs fun c hm =>
    h.reach_sublist ht hu (within_filter hc c hm) a.path).filterMap _

end Extends

-- A new child takes nothing away from what is found: an alternative lists all that it listed
-- before, in the same order and as often, and the new matches stand between them.
theorem Reachable.found_sublist_addChild {t : Tree} {parent : Nat} (h : t.Reachable)
    (hp : parent < t.size) (n : Node) :
    ∃ id u, t.addChild parent n = .ok (id, u) ∧
      (∀ a, ∃ w w', t.walk (.ofTree t) a = some w ∧ u.walk (.ofTree u) a = some w' ∧
        w.found.Sublist w'.found) ∧
      ∀ text, ∃ b b', t.select (some text) = .ok b ∧ u.select (some text) = .ok b' ∧
        ∀ id ∈ b.found, id ∈ b'.found := by
  have ht := h.wellFormed
  have hu : (t.attach parent n).WellFormed := ht.attach hp
  have hd (a : Alternative) : (t.designated a).Sublist ((t.attach parent n).designated a) :=
    Extends.attach.designated_sublist ht hu a
  refine ⟨t.size, t.attach parent n, addChild_eq_ok_iff.mpr ⟨hp, rfl, rfl⟩, ?walk, ?select⟩
  case walk =>
    intro a
    have ⟨w, hw, hf⟩   := ht.exists_walk_ofTree a
    have ⟨w', hw', hf'⟩ := hu.exists_walk_ofTree a
    exact ⟨w, w', hw, hw', hf ▸ hf' ▸ hd a⟩
  case select =>
    intro text
    have ⟨b, hb, _, hf⟩   := ht.exists_select text
    have ⟨b', hb', _, hf'⟩ := hu.exists_select text
    refine ⟨b, b', hb, hb', fun id hi => ?_⟩
    rw [hf, List.mem_eraseDups, List.mem_flatMap] at hi
    have ⟨a, ha, hi⟩ := hi
    rw [hf', List.mem_eraseDups, List.mem_flatMap]
    exact ⟨a, ha, (hd a).subset hi⟩

-- The new child of the root leads back to the root as well.
theorem found_sublist_addChild_parents :
    let n : Node := ⟨"a", none, none, none, .empty, [], none⟩
    let t := (ofRoot n).attach 0 n
    let a : Alternative := ⟨.root, ⟨.wildcard, none⟩, [⟨.wildcard, none⟩, ⟨.parent, none⟩]⟩
    t.Reachable ∧ 0 < t.size ∧
      ∃ u w w', t.addChild 0 n = .ok (2, u) ∧ t.walk (.ofTree t) a = some w ∧
        u.walk (.ofTree u) a = some w' ∧ w.found = [0] ∧ w'.found = [0, 0] ∧
        w.found.Sublist w'.found := by
  intro n t a
  have h : t.Reachable := .attach (.ofRoot n) (by decide)
  have hp : 0 < t.size := by decide
  have ⟨_, u, hu, hw, _⟩ := h.found_sublist_addChild hp n
  obtain ⟨_, rfl, rfl⟩ := addChild_eq_ok_iff.mp hu
  have ⟨w, w', hw, hw', hs⟩ := hw a
  have hf : (t.walk (.ofTree t) a).map Walk.found = some [0] := by decide +kernel
  have hf' : ((t.attach 0 n).walk (.ofTree (t.attach 0 n)) a).map Walk.found = some [0, 0] := by
    decide +kernel
  refine ⟨h, hp, _, w, w', hu, hw, hw', ?before, ?after, hs⟩
  case before => simpa [hw] using hf
  case after  => simpa [hw'] using hf'

end Tree
end TreeQuery
