import TreeQuery.Proofs.Evaluation.Comparison
import TreeQuery.Proofs.Evaluation.Union
import TreeQuery.Proofs.Tree.Isomorphism
import TreeQuery.Proofs.Tree.Ownership

namespace TreeQuery

-- The trees have the same shape, and counterparts have the same name and agree on all that a
-- selector with the given comparisons looks at.
structure Tree.Alike (t u : Tree) (f : Nat → Nat) (comparisons : List (String × String)) : Prop
    extends t.Isomorphic u f where
  name  : ∀ {id m n}, t.get? id = some m → u.get? (f id) = some n → m.name = n.name
  agree : ∀ {id m n}, t.get? id = some m → u.get? (f id) = some n →
    ∀ p ∈ comparisons, m.AgreeOn n p.1

def Cursor.map (f : Nat → Nat) : Cursor → Cursor
  | node id   => node (f id)
  | aboveRoot => aboveRoot

section

variable {f : Nat → Nat} {cs : List Cursor} {ids : List Nat}

theorem map_node_map : (ids.map f).map Cursor.node = (ids.map Cursor.node).map (.map f) := by
  rw [List.map_map, List.map_map]
  rfl

theorem filterMap_id?_map :
    (cs.map (.map f)).filterMap Cursor.id? = (cs.filterMap Cursor.id?).map f := by
  rw [List.filterMap_map, List.map_filterMap]
  congr 1
  funext c
  cases c <;> rfl

theorem filter_map_of_forall_mem {α β : Type} {g : α → β} {p : α → Bool} {q : β → Bool}
    {xs : List α} (h : ∀ x ∈ xs, q (g x) = p x) : (xs.map g).filter q = (xs.filter p).map g := by
  rw [List.filter_map]
  exact congrArg (List.map g) <| List.filter_congr h

end

namespace Tree

namespace Alike

variable {t u : Tree} {f : Nat → Nat} {comparisons : List (String × String)}
variable {id : Nat} {ids : List Nat} {c : Cursor}

theorem exists_counterparts (h : t.Alike u f comparisons) (hi : id < t.size) :
    ∃ m n, t.get? id = some m ∧ u.get? (f id) = some n ∧ m.name = n.name ∧
      ∀ p ∈ comparisons, m.AgreeOn n p.1 :=
  have ⟨m, hm⟩ := exists_get?_of_lt_size hi
  have ⟨n, hn⟩ := exists_get?_of_lt_size (h.lt_size hi)
  ⟨m, n, hm, hn, h.name hm hn, h.agree hm hn⟩

theorem hasName (h : t.Alike u f comparisons) {name : String} (hi : id < t.size) :
    u.hasName name (f id) = t.hasName name id := by
  have ⟨_, _, hm, hn, he, _⟩ := h.exists_counterparts hi
  simp [Tree.hasName, hm, hn, he]

theorem passes (h : t.Alike u f comparisons) {s : Segment} (hs : s.comparisons ⊆ comparisons)
    (hc : c.Within t) : (c.map f).passes u s.filter = c.passes t s.filter := by
  match c, s with
  | .aboveRoot, _           => rfl
  | .node _,    ⟨_, none⟩   => rfl
  | .node id,   ⟨_, some g⟩ =>
    have ⟨m, n, hm, hn, _, ha⟩ := h.exists_counterparts hc
    have ha : g.accepts m = g.accepts n := Filter.accepts_congr fun p hp => ha p (hs hp)
    simp [Cursor.map, Cursor.passes, hm, hn, ha]

theorem map_below (h : t.Alike u f comparisons) (ht : t.WellFormed) (hu : u.WellFormed)
    (hb : ∀ id ∈ ids, id < t.size) : u.below (ids.map f) = (t.below ids).map f := by
  rw [below, below, List.flatMap_map, List.map_flatMap]
  exact List.flatMap_congr fun id hi => h.preorder ht hu (hb id hi)

theorem cursor_children (h : t.Alike u f comparisons) (hc : c.Within t) :
    (c.map f).children u = (c.children t).map f := by
  cases c
  case node      => exact h.children hc
  case aboveRoot => exact congrArg (fun id => [id]) h.root.symm

theorem cursor_parent? (h : t.Alike u f comparisons) (ht : t.WellFormed) (hu : u.WellFormed)
    (hc : c.Within t) : (c.map f).parent? u = (c.parent? t).map (.map f) := by
  cases c
  case aboveRoot => rfl
  case node id   =>
    have hp := h.parent? ht hu hc
    cases hp' : t.parent? id <;> simp [Cursor.map, Cursor.parent?, hp, hp']

theorem next (h : t.Alike u f comparisons) (ht : t.WellFormed) (hu : u.WellFormed)
    (hc : c.Within t) (s : Step) :
    (c.map f).next u u.below s = (c.next t t.below s).map (.map f) := by
  have hch : (c.map f).children u = (c.children t).map f := h.cursor_children hc
  have hb : ∀ id ∈ c.children t, id < t.size := ht.lt_size_of_mem_cursor_children
  cases s <;> simp only [Cursor.next, hch]
  case named       =>
    rw [filter_map_of_forall_mem fun id hi => h.hasName (hb id hi), map_node_map]
  case wildcard    => rw [map_node_map]
  case descendants => rw [h.map_below ht hu hb, map_node_map]
  case current     => rfl
  case parent      => rw [h.cursor_parent? ht hu hc]; cases c.parent? t <;> rfl

theorem reach (h : t.Alike u f comparisons) (ht : t.WellFormed) (hu : u.WellFormed)
    {path : List Segment} (hs : ∀ s ∈ path, s.comparisons ⊆ comparisons) (hc : c.Within t) :
    u.reach u.below path (c.map f) = (t.reach t.below path c).map (.map f) := by
  induction path generalizing c
  case nil => rfl
  case cons s path hi =>
    have ⟨hs, hpath⟩ := List.forall_mem_cons.mp hs
    have hn : ∀ d ∈ c.next t t.below s.step, d.Within t :=
      ht.within_next (ht.lists le_rfl) hc s.step
    rw [Tree.reach, Tree.reach, h.next ht hu hc,
      filter_map_of_forall_mem fun d hd => h.passes hs (hn d hd), List.flatMap_map,
      List.map_flatMap]
    exact List.flatMap_congr fun d hd => hi hpath <| within_filter hn d hd

theorem starts (h : t.Alike u f comparisons) (ht : t.WellFormed) (hu : u.WellFormed) (s : Step)
    (a : Anchor) : u.starts u.below s a = (t.starts t.below s a).map f := by
  have hroot : [u.root] = [t.root].map f := congrArg (fun id => [id]) h.root.symm
  have hr : ∀ id ∈ [t.root], id < t.size := by simpa using ht.root_lt
  cases a
  case root =>
    cases s <;> simp only [Tree.starts]
    case named              =>
      rw [hroot, filter_map_of_forall_mem fun id hi => h.hasName (hr id hi)]
    case wildcard | current => exact hroot
    case parent             => rfl
    case descendants        =>
      rw [←h.root, h.children ht.root_lt]
      exact h.map_below ht hu fun _ => ht.mem_children_lt_size
  case anywhere =>
    have hall : u.below [u.root] = (t.below [t.root]).map f := by rw [hroot, h.map_below ht hu hr]
    have hb : ∀ id ∈ t.below [t.root], id < t.size := ht.lt_size_of_mem_flatMap_preorder hr
    cases s <;> simp only [Tree.starts, hall]
    case named       => exact filter_map_of_forall_mem fun id hi => h.hasName (hb id hi)
    case descendants =>
      refine filter_map_of_forall_mem fun id hi => ?_
      simp [←h.root, h.inj (hb id hi) ht.root_lt]
    case parent      =>
      refine filter_map_of_forall_mem fun id hi => ?_
      rw [h.children (hb id hi), List.isEmpty_map]

theorem designated (h : t.Alike u f comparisons) (ht : t.WellFormed) (hu : u.WellFormed)
    {a : Alternative} (ha : a.comparisons ⊆ comparisons) :
    u.designated a = (t.designated a).map f := by
  have hs : ∀ s ∈ a.first :: a.path, s.comparisons ⊆ comparisons :=
    fun s hm p hp => ha <| List.mem_flatMap.mpr ⟨s, hm, hp⟩
  have ⟨hfirst, hpath⟩ := List.forall_mem_cons.mp hs
  have hc : ∀ c ∈ (t.starts t.below a.first.step a.anchor).map Cursor.node, c.Within t :=
    ht.within_starts <| ht.lists le_rfl
  simp only [Tree.designated, designatedBy]
  rw [h.starts ht hu, map_node_map, filter_map_of_forall_mem fun c hm => h.passes hfirst (hc c hm),
    List.flatMap_map, ←filterMap_id?_map, List.map_flatMap]
  congr 1
  exact List.flatMap_congr fun c hm => h.reach ht hu hpath <| within_filter hc c hm

end Alike

-- What an alternative or a whole selector finds depends on the shape of the tree, the names, and
-- what the comparisons look at. Neither ids nor anything else about the nodes has a part in it.
theorem Reachable.found_eq_map {t u : Tree} {f : Nat → Nat} {s : Selector} (ht : t.Reachable)
    (hu : u.Reachable) (h : t.Alike u f s.comparisons) :
    (∀ a ∈ s.alternatives, ∃ w w',
      t.walk (.ofTree t) a = some w ∧ u.walk (.ofTree u) a = some w' ∧
        w'.found = w.found.map f) ∧
    ∃ b b', t.evaluate s = some b ∧ u.evaluate s = some b' ∧ b'.found = b.found.map f := by
  have ht := ht.wellFormed
  have hu := hu.wellFormed
  have hd : ∀ a ∈ s.alternatives, u.designated a = (t.designated a).map f := by
    intro a ha
    exact h.designated ht hu fun p hp => List.mem_flatMap.mpr ⟨a, ha, hp⟩
  constructor
  case left =>
    intro a ha
    have ⟨w, hw, hf, _⟩   := ht.walk_eq (ht.lists le_rfl) Visits.Ready.ofSize a
    have ⟨w', hw', hf', _⟩ := hu.walk_eq (hu.lists le_rfl) Visits.Ready.ofSize a
    exact ⟨w, w', hw, hw', by rw [hf, hf']; exact hd a ha⟩
  case right =>
    have ⟨b, hb, hf⟩   := ht.exists_evaluate s
    have ⟨b', hb', hf'⟩ := hu.exists_evaluate s
    have hlt : ∀ id ∈ s.alternatives.flatMap t.designated, id < t.size := by
      intro id hm
      have ⟨a, _, hm⟩ := List.mem_flatMap.mp hm
      exact ht.lt_size_of_mem_designatedBy (ht.lists le_rfl) id hm
    have hi := eraseDups_map f (s.alternatives.flatMap t.designated) fun id hm j hm' =>
      h.inj (hlt id hm) (hlt j hm') |>.mp
    refine ⟨b, b', hb, hb', ?_⟩
    rw [hf, hf', ←hi, List.map_flatMap, List.flatMap_congr hd]

-- The last two nodes are added in either order, and only the nodes of the second tree have
-- attributes, one of them with the name of a built-in property.
theorem found_eq_map_swapped :
    let m : Node := ⟨"a", some "x", none, none, .empty, [], none⟩
    let n : Node := { m with attributes := ⟨[("type", "y"), ("size", "1")], by decide⟩ }
    let t := (ofRoot m).afterCalls [(0, m), (0, m), (1, m)]
    let u := (ofRoot n).afterCalls [(0, n), (1, n), (0, n)]
    let f := Equiv.swap 2 3
    let filter : Filter := ⟨[⟨"type", .exactly "x"⟩]⟩
    let s : Selector := ⟨[⟨.root, ⟨.wildcard, none⟩, [⟨.wildcard, some filter⟩]⟩]⟩
    t.Reachable ∧ u.Reachable ∧ t.Alike u f s.comparisons ∧
      (t.evaluate s).map Answer.found = some [1, 2] ∧
      (u.evaluate s).map Answer.found = some [1, 3] := by
  intro m n t u f filter s
  have ht : t.Reachable := (Reachable.ofRoot m).afterCalls
  have hu : u.Reachable := (Reachable.ofRoot n).afterCalls
  have hb : ∀ id, f id < 4 ↔ id < 4 := by
    intro id
    simp only [f, Equiv.swap_apply_def]
    grind
  have hc : ∀ id < 4, u.children (f id) = (t.children id).map f := by decide
  have hm : ∀ k ∈ t.nodes, k.name = "a" ∧ k.kind = some "x" := by decide +kernel
  have hn : ∀ k ∈ u.nodes, k.name = "a" ∧ k.kind = some "x" := by decide +kernel
  have he : ∀ {id k l}, t.get? id = some k → u.get? (f id) = some l →
      k.name = l.name ∧ k.kind = l.kind := by
    intro id k l hk hl
    have ⟨hk, hk'⟩ := hm k <| Array.mem_of_getElem? hk
    have ⟨hl, hl'⟩ := hn l <| Array.mem_of_getElem? hl
    exact ⟨hk.trans hl.symm, hk'.trans hl'.symm⟩
  have h : t.Alike u f s.comparisons := {
    bijOn    := f.bijOn hb
    root     := by decide
    children := hc _
    name     := fun hk hl => (he hk hl).left
    agree    := fun hk hl p hp => by
      rw [List.mem_singleton.mp hp]
      exact (he hk hl).right
  }
  have hf : (t.evaluate s).map Answer.found = some [1, 2] := by decide +kernel
  have ⟨_, b, b', hbt, hbu, hbb⟩ := ht.found_eq_map hu h
  have hfb : b.found = [1, 2] := by simpa [hbt] using hf
  refine ⟨ht, hu, h, hf, ?_⟩
  rw [hbu, Option.map_some, hbb, hfb]
  decide

end Tree
end TreeQuery
