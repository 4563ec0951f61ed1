import TreeQuery.Evaluation
import TreeQuery.Proofs.Tree.Traversal

namespace TreeQuery

-- How everything at and below the given nodes is listed.
abbrev Listing := List Nat → List Nat

abbrev Tree.below (t : Tree) : Listing :=
  (·.flatMap t.preorder)

def Tree.hasName (t : Tree) (name : String) (id : Nat) : Bool :=
  (t.get? id).any (·.name = name)

namespace Cursor

-- The positions that a step can lead to, in order.
def next (t : Tree) (list : Listing) (c : Cursor) : Step → List Cursor
  | .named name  => (c.children t |>.filter <| t.hasName name).map .node
  | .wildcard    => (c.children t).map .node
  | .descendants => (list <| c.children t).map .node
  | .current     => [c]
  | .parent      => (c.parent? t).toList

def passes (t : Tree) (f : Option Filter) : Cursor → Bool
  | node id   => f.all fun f => (t.get? id).any f.accepts
  | aboveRoot => f.all Filter.acceptsAll

theorem filter_passes_none {t : Tree} {cs : List Cursor} : cs.filter (·.passes t none) = cs := by
  refine List.filter_eq_self.mpr fun c _ => ?_
  cases c <;> rfl

end Cursor

namespace Tree

variable (t : Tree) (list : Listing)

-- The nodes at which an alternative with the first step `s` can start, in order.
def starts (s : Step) : Anchor → List Nat
  | .root     =>
    match s with
    | .named name          => [t.root].filter <| t.hasName name
    | .wildcard | .current => [t.root]
    | .descendants         => list <| t.children t.root
    | .parent              => []
  | .anywhere =>
    match s with
    | .named name          => (list [t.root]).filter <| t.hasName name
    | .wildcard | .current => list [t.root]
    | .descendants         => (list [t.root]).filter (· ≠ t.root)
    | .parent              => (list [t.root]).filter fun id => !(t.children id).isEmpty

-- Where a path leads from a position. One successor is followed to the end of the path before the
-- next one is looked at, and nothing is remembered.
def reach : List Segment → Cursor → List Cursor
  | [],        c => [c]
  | s :: path, c => ((c.next t list s.step).filter (·.passes t s.filter)).flatMap (reach path)

def designatedBy (a : Alternative) : List Nat :=
  let starts := ((t.starts list a.first.step a.anchor).map .node).filter (·.passes t a.first.filter)
  (starts.flatMap <| t.reach list a.path).filterMap Cursor.id?

def designated (a : Alternative) : List Nat :=
  t.designatedBy (·.flatMap t.preorder) a

-- What the evaluation relies on when it collects nodes: with a table of `size` entries it gets the
-- nodes that `list` lists, and all of them are in the tree.
structure Lists (size : Nat) (list : Listing) : Prop where
  collect_eq {v : Visits} {ids} :
    v.Ready size → (∀ id ∈ ids, id < t.size) → (ids.flatMap t.preorder).Nodup →
    (t.collect v.newRound ids).1 = list ids
  lt_size {ids} : (∀ id ∈ ids, id < t.size) → ∀ id ∈ list ids, id < t.size

variable {t list} {v : Visits} {size : Nat}

-- The positions behind a segment are those at which the rest of the path begins.
theorem flatMap_reach_cons {cs : List Cursor} {s : Segment} {path : List Segment} :
    cs.flatMap (t.reach list (s :: path)) =
      ((cs.flatMap (·.next t list s.step)).filter (·.passes t s.filter)).flatMap
        (t.reach list path) := by
  simp only [reach, List.filter_flatMap, List.flatMap_assoc]

theorem WellFormed.lt_size_of_mem_flatMap_preorder (hw : t.WellFormed) {ids : List Nat}
    (hb : ∀ id ∈ ids, id < t.size) : ∀ id ∈ ids.flatMap t.preorder, id < t.size := by
  intro _ h
  have ⟨id, hm, h⟩ := List.mem_flatMap.mp h
  exact hw.lt_size_of_mem_preorder (hb id hm) h

theorem WellFormed.lists_filter (hw : t.WellFormed) :
    t.Lists size (fun ids => (ids.flatMap t.preorder).filter (· < size)) where
  collect_eq hv _ hn := hw.collect_eq hv.newRound.size_eq hn fun _ _ => hv.isOpen_newRound
  lt_size hb id h    := hw.lt_size_of_mem_flatMap_preorder hb id (List.mem_filter.mp h).left

theorem WellFormed.lists (hw : t.WellFormed) (hs : t.size ≤ size) :
    t.Lists size (·.flatMap t.preorder) where
  collect_eq hv hb hn := by
    rw [hw.lists_filter.collect_eq hv hb hn, List.filter_eq_self]
    simpa using fun id h => (hw.lt_size_of_mem_flatMap_preorder hb id h).trans_le hs
  lt_size := hw.lt_size_of_mem_flatMap_preorder

theorem sift_eq {p : Node → Bool} {ids : List Nat} (hb : ∀ id ∈ ids, id < t.size) :
    t.sift p ids = some (ids.filter fun id => (t.get? id).any p) := by
  induction ids
  case nil => rfl
  case cons id ids hi =>
    have ⟨n, hn⟩ := exists_get?_of_lt_size <| hb id (.head _)
    have hi := hi fun j hj => hb j (.tail _ hj)
    cases hp : p n <;> simp [sift, hn, hi, hp]

end Tree

-- A position that exists in the tree.
def Cursor.Within (t : Tree) : Cursor → Prop
  | node id   => id < t.size
  | aboveRoot => True

namespace Tree

variable {t : Tree} {list : Listing} {v : Visits} {size : Nat} {c : Cursor} {cs : List Cursor}

theorem within_filter {p : Cursor → Bool} (hc : ∀ c ∈ cs, c.Within t) :
    ∀ c ∈ cs.filter p, c.Within t :=
  fun c h => hc c (List.mem_filter.mp h).left

theorem within_map_node {ids : List Nat} (hb : ∀ id ∈ ids, id < t.size) :
    ∀ c ∈ ids.map Cursor.node, c.Within t :=
  List.forall_mem_map.mpr hb

theorem restrict_eq {f : Filter} (hc : ∀ c ∈ cs, c.Within t) :
    t.restrict f cs = some (cs.filter (·.passes t (some f))) := by
  induction cs
  case nil => rfl
  case cons c cs hi =>
    have hi := hi fun d hd => hc d (.tail _ hd)
    cases c
    case node id =>
      have ⟨n, hn⟩ := exists_get?_of_lt_size <| hc (.node id) (.head _)
      cases hp : f.accepts n <;> simp [restrict, admits, hn, hi, hp, Cursor.passes]
    case aboveRoot =>
      cases hp : f.acceptsAll <;> simp [restrict, admits, hi, hp, Cursor.passes]

theorem filtered_eq {f : Option Filter} (hc : ∀ c ∈ cs, c.Within t) :
    t.filtered f cs = some (cs.filter (·.passes t f)) := by
  cases f
  case some => exact restrict_eq hc
  case none => rw [filtered, Cursor.filter_passes_none]

namespace WellFormed

theorem lt_size_of_mem_cursor_children (hw : t.WellFormed) :
    ∀ id ∈ c.children t, id < t.size := by
  intro id h
  cases c
  case node      => exact hw.mem_children_lt_size h
  case aboveRoot => exact List.mem_singleton.mp h ▸ hw.root_lt

theorem nodup_below_cursor (hw : t.WellFormed) : ((c.children t).flatMap t.preorder).Nodup := by
  cases c
  case node      => exact hw.nodup_below
  case aboveRoot => simpa [Cursor.children] using hw.nodup_preorder

theorem within_parent? (hw : t.WellFormed) {p} (h : c.parent? t = some p) : p.Within t := by
  cases c
  case aboveRoot => simp [Cursor.parent?] at h
  case node id =>
    cases hp : t.parent? id <;> simp [Cursor.parent?, hp] at h
    case none   => exact h ▸ trivial
    case some p =>
      have hp := lt_size_of_mem_children <| hw.mem_children_iff.mpr hp
      exact h ▸ hp

theorem within_next (hw : t.WellFormed) (hl : t.Lists size list) (hc : c.Within t) (s : Step) :
    ∀ d ∈ c.next t list s, d.Within t := by
  have hb : ∀ id ∈ c.children t, id < t.size := hw.lt_size_of_mem_cursor_children
  cases s
  case named       => exact within_map_node fun id h => hb id (List.mem_of_mem_filter h)
  case wildcard    => exact within_map_node hb
  case descendants => exact within_map_node <| hl.lt_size hb
  case current     => simpa [Cursor.next] using hc
  case parent      => exact fun _ h => hw.within_parent? <| Option.mem_toList.mp h

theorem successors_eq (hw : t.WellFormed) (hl : t.Lists size list) (hv : v.Ready size) (s : Step) :
    ∃ v', (t.successors v c s = some (c.next t list s, v')) ∧ v'.Ready size := by
  have hb : ∀ id ∈ c.children t, id < t.size := hw.lt_size_of_mem_cursor_children
  cases s
  case named       => exact ⟨v, by simp [successors, sift_eq hb, Cursor.next]; rfl, hv⟩
  case wildcard    => exact ⟨v, rfl, hv⟩
  case current     => exact ⟨v, rfl, hv⟩
  case parent      => exact ⟨v, rfl, hv⟩
  case descendants =>
    refine ⟨_, ?_, ready_collect (t := t) hv.newRound (c.children t)⟩
    simp [successors, Cursor.next, ←hl.collect_eq hv hb hw.nodup_below_cursor]

theorem step_eq (hw : t.WellFormed) (hl : t.Lists size list) (hv : v.Ready size) (s : Step)
    (cs : List Cursor) :
    ∃ v', (t.step s v cs = some (cs.flatMap (·.next t list s), v')) ∧ v'.Ready size := by
  induction cs generalizing v
  case nil => exact ⟨v, rfl, hv⟩
  case cons c cs hi =>
    have ⟨v₁, h₁, hv₁⟩ := hw.successors_eq hl hv (c := c) s
    have ⟨v₂, h₂, hv₂⟩ := hi hv₁
    exact ⟨v₂, by simp [step, h₁, h₂], hv₂⟩

theorem follow_eq (hw : t.WellFormed) (hl : t.Lists size list) (hv : v.Ready size)
    (hc : ∀ c ∈ cs, c.Within t) (path : List Segment) :
    ∃ w, (t.follow v cs path = some w) ∧ (w.cursors = cs.flatMap (t.reach list path)) ∧
      w.visits.Ready size := by
  induction path generalizing v cs
  case nil => cases cs <;> exact ⟨_, by rw [follow], by simp [reach], hv⟩
  case cons s path hi =>
    cases cs
    case nil => exact ⟨_, by rw [follow], rfl, hv⟩
    case cons c cs =>
      have ⟨v₁, h₁, hv₁⟩ := hw.step_eq hl hv s.step (c :: cs)
      have hn : ∀ d ∈ (c :: cs).flatMap (·.next t list s.step), d.Within t := by
        intro d h
        have ⟨c, hm, h⟩ := List.mem_flatMap.mp h
        exact hw.within_next hl (hc c hm) s.step d h
      have hk := filtered_eq (f := s.filter) hn
      have ⟨w, h₂, hw₂, hv₂⟩ := hi hv₁ <| within_filter (p := (·.passes t s.filter)) hn
      have hf : ∃ applied, t.follow v (c :: cs) (s :: path) = some { w with applied } := by
        simp only [follow, h₁, hk, h₂, Option.bind_eq_bind, Option.bind_some]
        exact ⟨_, rfl⟩
      have ⟨_, hf⟩ := hf
      refine ⟨_, hf, ?_, hv₂⟩
      rw [hw₂, flatMap_reach_cons]

theorem starts_lt_size (hw : t.WellFormed) (hl : t.Lists size list) (s : Step) (a : Anchor) :
    ∀ id ∈ t.starts list s a, id < t.size := by
  have hr : ∀ id ∈ [t.root], id < t.size := by simpa using hw.root_lt
  have hc : ∀ id ∈ t.children t.root, id < t.size := fun _ => hw.mem_children_lt_size
  intro id h
  cases a <;> cases s <;> simp only [starts, List.mem_filter, List.not_mem_nil] at h
  case root.named                                => exact hr id h.left
  case root.wildcard | root.current              => exact hr id h
  case root.descendants                          => exact hl.lt_size hc id h
  case anywhere.wildcard | anywhere.current      => exact hl.lt_size hr id h
  case anywhere.named | anywhere.descendants | anywhere.parent => exact hl.lt_size hr id h.left

theorem within_starts (hw : t.WellFormed) (hl : t.Lists size list) {s : Step} {a : Anchor} :
    ∀ c ∈ (t.starts list s a).map Cursor.node, c.Within t :=
  within_map_node <| hw.starts_lt_size hl s a

theorem within_reach (hw : t.WellFormed) (hl : t.Lists size list) (hc : c.Within t)
    (path : List Segment) : ∀ d ∈ t.reach list path c, d.Within t := by
  induction path generalizing c
  case nil => simpa [reach] using hc
  case cons s path hi =>
    intro d h
    have ⟨e, he, h⟩ := List.mem_flatMap.mp h
    exact hi (within_filter (hw.within_next hl hc s.step) e he) d h

theorem lt_size_of_mem_designatedBy (hw : t.WellFormed) (hl : t.Lists size list)
    {a : Alternative} : ∀ id ∈ t.designatedBy list a, id < t.size := by
  intro id h
  have ⟨d, h, hd⟩ := List.mem_filterMap.mp h
  have ⟨c, hc, h⟩ := List.mem_flatMap.mp h
  have hw := hw.within_reach hl (within_filter (hw.within_starts hl) c hc) a.path d h
  cases d <;> cases hd
  exact hw

theorem firstStep_eq (hw : t.WellFormed) (hl : t.Lists size list) (hv : v.Ready size) (s : Step)
    (a : Anchor) :
    ∃ v', (t.firstStep v s a = some (t.starts list s a, v')) ∧ v'.Ready size := by
  have hr : ∀ id ∈ [t.root], id < t.size := by simpa using hw.root_lt
  cases a
  case root =>
    cases s
    case named       => exact ⟨v, by simp [firstStep, rootStep, starts, sift_eq hr]; rfl, hv⟩
    case wildcard    => exact ⟨v, rfl, hv⟩
    case current     => exact ⟨v, rfl, hv⟩
    case parent      => exact ⟨v, rfl, hv⟩
    case descendants =>
      refine ⟨_, ?_, ready_collect (t := t) hv.newRound (t.children t.root)⟩
      have hc : ∀ id ∈ t.children t.root, id < t.size := fun _ => hw.mem_children_lt_size
      simp [firstStep, rootStep, starts, ←hl.collect_eq hv hc hw.nodup_below]
  case anywhere =>
    have hn : ([t.root].flatMap t.preorder).Nodup := by simpa using hw.nodup_preorder
    have he := hl.collect_eq hv hr hn
    refine ⟨_, ?_, ready_collect (t := t) hv.newRound [t.root]⟩
    cases s <;> simp [firstStep, deepStep, starts, he]
    case named => simp [sift_eq <| hl.lt_size hr]; rfl

theorem walk_eq (hw : t.WellFormed) (hl : t.Lists size list) (hv : v.Ready size)
    (a : Alternative) :
    ∃ w, (t.walk v a = some w) ∧ (w.found = t.designatedBy list a) ∧ w.visits.Ready size := by
  have ⟨v₁, h₁, hv₁⟩ := hw.firstStep_eq hl hv a.first.step a.anchor
  have hc : ∀ c ∈ (t.starts list a.first.step a.anchor).map Cursor.node, c.Within t :=
    hw.within_starts hl
  have hf := filtered_eq (f := a.first.filter) hc
  have hc' := within_filter (p := (·.passes t a.first.filter)) hc
  have ⟨w, h₂, hw₂, hv₂⟩ := hw.follow_eq hl hv₁ hc' a.path
  exact ⟨w, by simp [walk, h₁, hf, h₂], by simp only [Walk.found, hw₂, designatedBy], hv₂⟩

theorem exists_walk_ofTree (hw : t.WellFormed) (a : Alternative) :
    ∃ w, t.walk (.ofTree t) a = some w ∧ w.found = t.designated a := by
  have ⟨w, hw, hf, _⟩ := hw.walk_eq (hw.lists le_rfl) Visits.Ready.ofSize a
  exact ⟨w, hw, hf⟩

end WellFormed

-- Evaluating an alternative lists what following each path on its own lists, in the same order and
-- each node as often.
theorem Reachable.walk_eq_designated (h : t.Reachable) (a : Alternative) :
    (t.walk (.ofTree t) a).map Walk.found = some (t.designated a) := by
  have hw := h.wellFormed
  have ⟨w, hw, hf, _⟩ := hw.walk_eq (hw.lists le_rfl) Visits.Ready.ofSize a
  rw [Visits.ofTree, hw, Option.map_some, hf, designated]

-- From above the root everything is below, so each child of the root leads back to the root.
theorem walk_siblings_from_above :
    let n : Node := ⟨"a", none, none, none, .empty, [], none⟩
    let t := ((ofRoot n).attach 0 n).attach 0 n
    let path : List Segment := [⟨.parent, none⟩, ⟨.descendants, none⟩, ⟨.parent, none⟩]
    t.Reachable ∧
      (t.walk (.ofTree t) ⟨.root, ⟨.wildcard, none⟩, path⟩).map Walk.found = some [0, 0] := by
  intro n t path
  have h : t.Reachable := .attach (.attach (.ofRoot n) (by decide)) (by decide)
  refine ⟨h, (h.walk_eq_designated _).trans ?_⟩
  have hp : t.preorder 0 = [0, 1, 2] := by
    have h₀ : t.children 0 = [1, 2] := rfl
    have h₁ : t.children 1 = [] := rfl
    have h₂ : t.children 2 = [] := rfl
    simp [h.wellFormed.preorder_eq, h₀, h₁, h₂]
  have h₀ : t.parent? 0 = none := rfl
  have h₁ : t.parent? 1 = some 0 := rfl
  have h₂ : t.parent? 2 = some 0 := rfl
  simp [designated, designatedBy, starts, reach, path, Cursor.next, Cursor.passes, Cursor.children,
    Cursor.parent?, root, hp, h₀, h₁, h₂]
  rfl

end Tree
end TreeQuery
