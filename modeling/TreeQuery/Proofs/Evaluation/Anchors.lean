import TreeQuery.Proofs.Evaluation.Union

namespace TreeQuery.Tree

open Relation (ReflTransGen)

variable {t : Tree} {s : Step} {f : Option Filter} {path : List Segment} {cs cs' : List Cursor}
  {id j : Nat}

-- What the positions lead to that pass a filter.
def foundFrom (t : Tree) (f : Option Filter) (path : List Segment) (cs : List Cursor) : List Nat :=
  ((cs.filter (·.passes t f)).flatMap <| t.reach t.below path).filterMap Cursor.id?

theorem designated_eq_foundFrom {a : Anchor} :
    t.designated ⟨a, ⟨s, f⟩, path⟩ = t.foundFrom f path ((t.starts t.below s a).map .node) :=
  rfl

-- A segment without a filter only moves the positions.
theorem foundFrom_none_cons :
    t.foundFrom none (⟨s, f⟩ :: path) cs =
      t.foundFrom f path (cs.flatMap (·.next t t.below s)) := by
  rw [foundFrom, Cursor.filter_passes_none, flatMap_reach_cons, foundFrom]

theorem mem_foundFrom_iff :
    id ∈ t.foundFrom f path cs ↔
      ∃ c ∈ cs, c.passes t f ∧ .node id ∈ t.reach t.below path c := by
  have hi {c : Cursor} : c.id? = some id ↔ c = .node id := by
    cases c <;> simp [Cursor.id?]
  simp [foundFrom, List.mem_filterMap, hi, and_assoc]

theorem mem_foundFrom_congr (h : ∀ c, c ∈ cs ↔ c ∈ cs') :
    id ∈ t.foundFrom f path cs ↔ id ∈ t.foundFrom f path cs' := by
  simp only [mem_foundFrom_iff, h]

theorem foundFrom_append :
    t.foundFrom f path (cs ++ cs') = t.foundFrom f path cs ++ t.foundFrom f path cs' := by
  simp [foundFrom]

namespace WellFormed

theorem filter_ne_root (hw : t.WellFormed) :
    (t.preorder t.root).filter (· ≠ t.root) = t.below (t.children t.root) := by
  have hn : (t.preorder t.root).Nodup := hw.nodup_preorder
  have hn := List.nodup_cons.mp <| hw.preorder_eq ▸ hn
  have hr : ∀ j ∈ t.below (t.children t.root), j ≠ t.root :=
    fun _ hj => ne_of_mem_of_not_mem hj hn.left
  rw [hw.preorder_eq, List.filter_cons_of_neg (by simp), List.filter_eq_self]
  simpa using hr

-- Whatever is below a node is its child or a child of something below it.
theorem mem_below_children_iff (hw : t.WellFormed) :
    j ∈ t.below (t.children id) ↔
      j ∈ t.children id ∨ ∃ d ∈ t.below (t.children id), j ∈ t.children d := by
  constructor <;> intro h
  case mp =>
    have ⟨c, hc, hj⟩ := List.mem_flatMap.mp h
    cases (hw.mem_preorder_iff.mp hj).cases_head
    case inl he => exact .inl <| he ▸ hc
    case inr hu =>
      have ⟨d, hu, hd⟩ := hu
      have hd : d ∈ t.below (t.children id) :=
        List.mem_flatMap.mpr ⟨c, hc, hw.mem_preorder_iff.mpr hd⟩
      exact .inr ⟨d, hd, hw.mem_children_iff.mpr hu⟩
  case mpr =>
    cases h
    case inl h =>
      exact List.mem_flatMap.mpr ⟨j, h, hw.mem_preorder_iff.mpr .refl⟩
    case inr h =>
      have ⟨d, hd, hj⟩ := h
      have ⟨c, hc, hd⟩ := List.mem_flatMap.mp hd
      have hj : ReflTransGen t.Up j c :=
        (hw.mem_preorder_iff.mp hd).head <| hw.mem_children_iff.mp hj
      exact List.mem_flatMap.mpr ⟨c, hc, hw.mem_preorder_iff.mpr hj⟩

theorem mem_below_root_iff (hw : t.WellFormed) :
    j ∈ t.below (t.children t.root) ↔ j ∈ t.preorder t.root ∧ j ≠ t.root := by
  simp [←hw.filter_ne_root, List.mem_filter]

theorem exists_parent_of_mem_below (hw : t.WellFormed) (h : j ∈ t.below (t.children id)) :
    ∃ p, t.parent? j = some p := by
  cases hw.mem_below_children_iff.mp h
  case inl h => exact ⟨id, hw.mem_children_iff.mp h⟩
  case inr h =>
    have ⟨p, _, h⟩ := h
    exact ⟨p, hw.mem_children_iff.mp h⟩

-- The nodes with children are the parents of the nodes below the root.
theorem mem_starts_parent_iff (hw : t.WellFormed) :
    id ∈ t.starts t.below .parent .anywhere ↔
      ∃ d ∈ t.below (t.children t.root), t.parent? d = some id := by
  have hs : id ∈ t.starts t.below .parent .anywhere ↔
      id ∈ t.preorder t.root ∧ ∃ d, t.parent? d = some id := by
    simp [starts, List.eq_nil_iff_forall_not_mem, hw.mem_children_iff]
  rw [hs]
  constructor
  case mp =>
    rintro ⟨hi, d, hp⟩
    have hd : d ∈ t.preorder t.root :=
      hw.mem_preorder_iff.mpr <| (hw.mem_preorder_iff.mp hi).head hp
    have hr : d ≠ t.root := by
      intro hr
      simp [hr, hw.parent?_root] at hp
    exact ⟨d, hw.mem_below_root_iff.mpr ⟨hd, hr⟩, hp⟩
  case mpr =>
    rintro ⟨d, hd, hp⟩
    obtain ⟨hd, hr⟩ := hw.mem_below_root_iff.mp hd
    cases (hw.mem_preorder_iff.mp hd).cases_head
    case inl he => exact absurd he hr
    case inr hu =>
      obtain ⟨p, hu, hi⟩ := hu
      have he : p = id := up_rightUnique hu hp
      exact ⟨hw.mem_preorder_iff.mpr <| he ▸ hi, d, hp⟩

theorem mem_map_starts_parent_iff (hw : t.WellFormed) {c : Cursor} :
    c ∈ (t.starts t.below .parent .anywhere).map .node ↔
      ∃ d ∈ t.below (t.children t.root), (Cursor.node d).parent? t = some c := by
  constructor
  case mp =>
    intro h
    obtain ⟨p, hp, hc⟩ := List.mem_map.mp h
    obtain ⟨d, hd, hp⟩ := hw.mem_starts_parent_iff.mp hp
    exact ⟨d, hd, by simp [Cursor.parent?, hp, hc]⟩
  case mpr =>
    rintro ⟨d, hd, hc⟩
    obtain ⟨p, hp⟩ := hw.exists_parent_of_mem_below hd
    have hc : .node p = c := by simpa [Cursor.parent?, hp] using hc
    exact hc ▸ List.mem_map_of_mem (hw.mem_starts_parent_iff.mpr ⟨d, hd, hp⟩)

end WellFormed

-- Both alternatives find the same nodes in the same order and each of them as often.
def FindsAlike (t : Tree) (a b : Alternative) : Prop :=
  ∃ v w, t.walk (.ofTree t) a = some v ∧ t.walk (.ofTree t) b = some w ∧ v.found = w.found

-- Both unions have the same nodes, in whichever order they find them.
def SelectsAlike (t : Tree) (as bs : List Alternative) : Prop :=
  ∃ x y, t.evaluate ⟨as⟩ = some x ∧ t.evaluate ⟨bs⟩ = some y ∧ ∀ id, id ∈ x.found ↔ id ∈ y.found

namespace WellFormed

variable {a b : Alternative} {as bs : List Alternative} {name : String}

theorem findsAlike (hw : t.WellFormed) (h : t.designated a = t.designated b) :
    t.FindsAlike a b := by
  have ⟨v, ha, hv⟩ := hw.exists_walk_ofTree a
  have ⟨w, hb, hw⟩ := hw.exists_walk_ofTree b
  exact ⟨v, w, ha, hb, by rw [hv, hw, h]⟩

theorem selectsAlike (hw : t.WellFormed)
    (h : ∀ id, id ∈ as.flatMap t.designated ↔ id ∈ bs.flatMap t.designated) :
    t.SelectsAlike as bs := by
  have ⟨x, ha, hx⟩ := hw.exists_evaluate ⟨as⟩
  have ⟨y, hb, hy⟩ := hw.exists_evaluate ⟨bs⟩
  exact ⟨x, y, ha, hb, fun id => by rw [hx, hy, List.mem_eraseDups, List.mem_eraseDups, h]⟩

theorem designated_anywhere_descendants (hw : t.WellFormed) :
    t.designated ⟨.anywhere, ⟨.descendants, f⟩, path⟩ =
      t.designated ⟨.root, ⟨.descendants, f⟩, path⟩ := by
  simp [designated_eq_foundFrom, starts, ←hw.filter_ne_root]

-- From the root up to the level above it, and from there down to everything.
theorem designated_anywhere_wildcard (hw : t.WellFormed) :
    t.designated ⟨.anywhere, ⟨.wildcard, f⟩, path⟩ =
      t.designated ⟨.root, ⟨.wildcard, none⟩, ⟨.parent, none⟩ :: ⟨.descendants, f⟩ :: path⟩ := by
  simp [designated_eq_foundFrom, foundFrom_none_cons, starts, Cursor.next, Cursor.parent?,
    Cursor.children, hw.parent?_root]

theorem mem_designated_anywhere_named (hw : t.WellFormed) :
    id ∈ [⟨.anywhere, ⟨.named name, f⟩, path⟩].flatMap t.designated ↔
      id ∈ List.flatMap t.designated [
        ⟨.root, ⟨.named name, f⟩, path⟩,
        ⟨.root, ⟨.wildcard, none⟩, ⟨.named name, f⟩ :: path⟩,
        ⟨.root, ⟨.wildcard, none⟩, ⟨.descendants, none⟩ :: ⟨.named name, f⟩ :: path⟩] := by
  simp only [List.flatMap_cons, List.flatMap_nil, List.append_nil, designated_eq_foundFrom,
    foundFrom_none_cons, ←foundFrom_append]
  apply mem_foundFrom_congr
  intro c
  have hr {j : Nat} : j ∈ t.preorder t.root ↔ j = t.root ∨ j ∈ t.children t.root ∨
      ∃ d ∈ t.below (t.children t.root), j ∈ t.children d := by
    rw [hw.preorder_eq, List.mem_cons, hw.mem_below_children_iff]
  cases c
  case aboveRoot => simp [Cursor.next]
  case node j =>
    by_cases hn : t.hasName name j <;> simp [starts, Cursor.next, Cursor.children, hr, hn]

theorem mem_designated_anywhere_parent (hw : t.WellFormed) :
    id ∈ [⟨.anywhere, ⟨.parent, f⟩, path⟩].flatMap t.designated ↔
      id ∈ List.flatMap t.designated [
        ⟨.root, ⟨.wildcard, none⟩, ⟨.descendants, none⟩ :: ⟨.parent, f⟩ :: path⟩] := by
  simp only [List.flatMap_cons, List.flatMap_nil, List.append_nil, designated_eq_foundFrom,
    foundFrom_none_cons]
  apply mem_foundFrom_congr
  intro c
  rw [hw.mem_map_starts_parent_iff]
  simp [starts, Cursor.next, Cursor.children]

end WellFormed

-- Starting anywhere says nothing that starting at the root could not say: wildcards and descendants
-- find the same lists, names and parents the same nodes.
theorem Reachable.anywhere_agrees_with_root (h : t.Reachable) (f : Option Filter)
    (path : List Segment) (name : String) :
    t.FindsAlike
      ⟨.anywhere, ⟨.wildcard, f⟩, path⟩
      ⟨.anywhere, ⟨.current, f⟩, path⟩ ∧
    t.FindsAlike
      ⟨.anywhere, ⟨.wildcard, f⟩, path⟩
      ⟨.root, ⟨.wildcard, none⟩, ⟨.parent, none⟩ :: ⟨.descendants, f⟩ :: path⟩ ∧
    t.FindsAlike
      ⟨.anywhere, ⟨.descendants, f⟩, path⟩
      ⟨.root, ⟨.descendants, f⟩, path⟩ ∧
    t.SelectsAlike
      [⟨.anywhere, ⟨.named name, f⟩, path⟩]
      [⟨.root, ⟨.named name, f⟩, path⟩,
       ⟨.root, ⟨.wildcard, none⟩, ⟨.named name, f⟩ :: path⟩,
       ⟨.root, ⟨.wildcard, none⟩, ⟨.descendants, none⟩ :: ⟨.named name, f⟩ :: path⟩] ∧
    t.SelectsAlike
      [⟨.anywhere, ⟨.parent, f⟩, path⟩]
      [⟨.root, ⟨.wildcard, none⟩, ⟨.descendants, none⟩ :: ⟨.parent, f⟩ :: path⟩] := by
  have hw := h.wellFormed
  refine ⟨?current, ?wildcard, ?descendants, ?named, ?parent⟩
  case current     => exact hw.findsAlike rfl
  case wildcard    => exact hw.findsAlike hw.designated_anywhere_wildcard
  case descendants => exact hw.findsAlike hw.designated_anywhere_descendants
  case named       => exact hw.selectsAlike fun _ => hw.mem_designated_anywhere_named
  case parent      => exact hw.selectsAlike fun _ => hw.mem_designated_anywhere_parent

-- The nodes are the same, but the deep alternative finds the lower one before the upper one.
theorem deep_name_finds_in_another_order :
    let node (name : String) : Node := ⟨name, none, none, none, .empty, [], none⟩
    let t := (((ofRoot <| node "a").attach 0 <| node "b").attach 1 <| node "a").attach 0 <| node "a"
    let name : Segment := ⟨.named "a", none⟩
    let deep : List Alternative := [⟨.anywhere, name, []⟩]
    let anchored : List Alternative := [
      ⟨.root, name, []⟩,
      ⟨.root, ⟨.wildcard, none⟩, [name]⟩,
      ⟨.root, ⟨.wildcard, none⟩, [⟨.descendants, none⟩, name]⟩]
    t.Reachable ∧ t.SelectsAlike deep anchored ∧
      deep.flatMap t.designated = [0, 2, 3] ∧ anchored.flatMap t.designated = [0, 3, 2] := by
  intro node t name deep anchored
  have h : t.Reachable :=
    .attach (.attach (.attach (.ofRoot _) (by decide)) (by decide)) (by decide)
  have ⟨_, _, _, hs, _⟩ := h.anywhere_agrees_with_root none [] "a"
  refine ⟨h, hs, ?_⟩
  have h₀ : t.children 0 = [1, 3] := rfl
  have h₁ : t.children 1 = [2] := rfl
  have h₂ : t.children 2 = [] := rfl
  have h₃ : t.children 3 = [] := rfl
  have hn : t.hasName "a" 0 ∧ ¬t.hasName "a" 1 ∧ t.hasName "a" 2 ∧ t.hasName "a" 3 := by decide
  have hp {id : Nat} : t.preorder id = id :: (t.children id).flatMap t.preorder :=
    h.wellFormed.preorder_eq
  simp [deep, anchored, name, designated_eq_foundFrom, foundFrom, starts, reach, Cursor.next,
    Cursor.passes, Cursor.children, root, hp, h₀, h₁, h₂, h₃, hn]
  exact ⟨rfl, rfl⟩

end TreeQuery.Tree
