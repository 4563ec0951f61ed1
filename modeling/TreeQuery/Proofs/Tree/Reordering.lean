import TreeQuery.Proofs.Evaluation.Invariance
import TreeQuery.Proofs.Tree.Loading

namespace TreeQuery

-- Equal but for the order in which the attributes of a node are listed.

structure Node.Reordered (m n : Node) : Prop where
  name       : m.name = n.name
  kind       : m.kind = n.kind
  variant    : m.variant = n.variant
  version    : m.version = n.version
  attributes : m.attributes.entries.Perm n.attributes.entries
  children   : m.children = n.children
  parent     : m.parent = n.parent

inductive Spec.Reordered : Spec → Spec → Prop
  | mk {s s' : Spec} :
    (s.name = s'.name) → (s.kind = s'.kind) → (s.variant = s'.variant) →
    (s.version = s'.version) → s.attributes.entries.Perm s'.attributes.entries →
    List.Forall₂ Reordered s.children s'.children → Reordered s s'

structure Tree.Reordered (t u : Tree) : Prop where
  size : t.size = u.size
  get? : ∀ {id m n}, t.get? id = some m → u.get? id = some n → m.Reordered n

-- Both fail with the same error, or what comes out of both is related.
inductive Alongside {ε α β : Type} (r : α → β → Prop) : Except ε α → Except ε β → Prop
  | error {e : ε} : Alongside r (.error e) (.error e)
  | ok {x : α} {y : β} : r x y → Alongside r (.ok x) (.ok y)

namespace Alongside

variable {ε α β : Type} {r : α → β → Prop} {x : Except ε α} {y : Except ε β}

theorem eq_error {e : ε} (h : Alongside r x y) (hx : x = .error e) : y = .error e := by
  cases h <;> cases hx
  rfl

theorem exists_ok {a : α} (h : Alongside r x y) (hx : x = .ok a) : ∃ b, y = .ok b ∧ r a b := by
  cases h <;> cases hx
  exact ⟨_, rfl, ‹_›⟩

end Alongside

namespace Attributes

variable {as bs : Attributes} {key : String}

theorem lookup_eq_of_perm {entries entries' : List (String × String)}
    (h : entries.Perm entries') (hn : (entries.map Prod.fst).Nodup) :
    entries.lookup key = entries'.lookup key := by
  induction h
  case nil => rfl
  case cons e _ _ _ hi =>
    rw [List.lookup_cons, List.lookup_cons, hi (List.nodup_cons.mp hn).right]
  case swap e e' entries =>
    obtain ⟨k, v⟩ := e
    obtain ⟨k', v'⟩ := e'
    have hne : k' ≠ k := fun he => by simp [he] at hn
    simp only [List.lookup_cons]
    split <;> split <;> simp_all
  case trans hp _ hi hi' => exact (hi hn).trans <| hi' <| hp.map _ |>.nodup hn

theorem get?_eq_of_perm (h : as.entries.Perm bs.entries) : as.get? key = bs.get? key :=
  lookup_eq_of_perm h as.nodup_keys

end Attributes

theorem Node.Reordered.agreeOn {m n : Node} (h : m.Reordered n) (key : String) :
    m.AgreeOn n key := by
  unfold AgreeOn
  split
  case h_1 => exact h.kind
  case h_2 => exact h.variant
  case h_3 => exact h.version
  case h_4 => exact Attributes.get?_eq_of_perm h.attributes

theorem Spec.Reordered.toNode {s s' : Spec} (h : s.Reordered s') :
    Alongside Node.Reordered s.toNode s'.toNode := by
  obtain ⟨hn, hk, hv, hr, ha, _⟩ := h
  unfold Spec.toNode
  rw [←hn]
  split
  case isTrue  => exact .error
  case isFalse => exact .ok ⟨rfl, hk, hv, hr, ha, rfl, rfl⟩

theorem Spec.Reordered.children {s s' : Spec} (h : s.Reordered s') :
    List.Forall₂ Spec.Reordered s.children s'.children := by
  cases h
  assumption

theorem Spec.Reordered.refl (s : Spec) : s.Reordered s :=
  .mk rfl rfl rfl rfl (.refl _) <| List.forall₂_same.mpr fun c _ => refl c
termination_by sizeOf s
decreasing_by
  have := List.sizeOf_lt_of_mem ‹_›
  have := s.sizeOf_children_lt
  omega

namespace Tree

-- Pending lists below the same parents.
inductive ReorderedLists : List (Nat × List Spec) → List (Nat × List Spec) → Prop
  | nil : ReorderedLists [] []
  | cons {parent : Nat} {specs specs' : List Spec} {pending pending' : List (Nat × List Spec)} :
    List.Forall₂ Spec.Reordered specs specs' → ReorderedLists pending pending' →
    ReorderedLists ((parent, specs) :: pending) ((parent, specs') :: pending')

namespace Reordered

variable {t u : Tree} {m n : Node} {id parent : Nat}

theorem exists_counterpart (h : t.Reordered u) (hm : t.get? id = some m) :
    ∃ n, u.get? id = some n ∧ m.Reordered n := by
  have hi : id < u.size := by
    rw [←h.size]
    by_contra hc
    simp [get?_eq_none_iff.mpr (not_lt.mp hc)] at hm
  have ⟨n, hn⟩ := exists_get?_of_lt_size hi
  exact ⟨n, hn, h.get? hm hn⟩

theorem ofRoot (h : m.Reordered n) : (Tree.ofRoot m).Reordered (Tree.ofRoot n) where
  size := rfl
  get? := by
    intro id m' n' hm hn
    cases id
    case succ => simp [Tree.get?, Tree.ofRoot] at hm
    case zero =>
      cases hm
      cases hn
      exact { h with children := rfl, parent := rfl }

theorem attach (h : t.Reordered u) (hn : m.Reordered n) :
    (t.attach parent m).Reordered (u.attach parent n) where
  size := by rw [size_attach, size_attach, h.size]
  get? := by
    intro id m' n' hm' hn'
    rcases lt_trichotomy id t.size with hi | hi | hi
    case inl =>
      rw [get?_attach_of_lt hi] at hm'
      rw [get?_attach_of_lt (h.size ▸ hi)] at hn'
      have ⟨m₀, hm₀, hm'⟩ := Option.map_eq_some_iff.mp hm'
      have ⟨n₀, hn₀, hn'⟩ := Option.map_eq_some_iff.mp hn'
      have hr := h.get? hm₀ hn₀
      rw [←hm', ←hn']
      split
      case isTrue  => exact { hr with children := by rw [hr.children, h.size] }
      case isFalse => exact hr
    case inr.inl =>
      rw [hi, get?_attach_size] at hm'
      rw [hi, h.size, get?_attach_size] at hn'
      cases hm'
      cases hn'
      exact { hn with children := rfl, parent := rfl }
    case inr.inr =>
      have hs : (t.attach parent m).size ≤ id := size_attach.trans_le hi
      simp [get?_eq_none_iff.mpr hs] at hm'

-- The trees grow in step: each list that is taken up adds counterparts below the same parent, and
-- leaves counterparts behind.
theorem grow {pending pending' : List (Nat × List Spec)} (h : t.Reordered u)
    (hp : ReorderedLists pending pending') :
    Alongside Tree.Reordered (t.grow pending) (u.grow pending') := by
  induction t, pending using Tree.grow.induct generalizing u pending'
  case case1 t =>
    cases hp
    rw [Tree.grow, Tree.grow]
    exact .ok h
  case case2 hi =>
    cases hp
    case cons hs hp =>
      cases hs
      rw [Tree.grow, Tree.grow]
      exact hi h hp
  case case3 hn =>
    cases hp
    case cons hs _ =>
      cases hs
      case cons hs _ =>
        simp only [Tree.grow, hn, hs.toNode.eq_error hn]
        exact .error
  case case4 hm hi =>
    cases hp
    case cons hs hp =>
      cases hs
      case cons hs hspecs =>
        have ⟨n, hn, hr⟩ := hs.toNode.exists_ok hm
        simp only [Tree.grow, hm, hn]
        exact hi (h.attach hr) <| .cons hspecs <| h.size ▸ .cons hs.children hp

end Reordered

namespace Reordered

variable {t u : Tree}

theorem children_eq (h : t.Reordered u) (id : Nat) : u.children id = t.children id := by
  by_cases hi : id < t.size
  case pos =>
    have ⟨m, hm⟩ := exists_get?_of_lt_size hi
    have ⟨n, hn, hr⟩ := h.exists_counterpart hm
    simp [children, hm, hn, hr.children]
  case neg =>
    have hi := not_lt.mp hi
    rw [children_eq_nil_of_size_le hi, children_eq_nil_of_size_le (h.size ▸ hi)]

-- Each node is its own counterpart.
theorem alike (h : t.Reordered u) (comparisons : List (String × String)) :
    t.Alike u id comparisons where
  bijOn      := h.size ▸ Set.bijOn_id _
  root       := rfl
  children _ := by rw [List.map_id, h.children_eq, id]
  name hm hn := (h.get? hm hn).name
  agree hm hn p _ := (h.get? hm hn).agreeOn p.1

theorem namesUp_eq (h : t.Reordered u) (id : Nat) : u.namesUp id = t.namesUp id := by
  fun_induction t.namesUp id
  case case1 id hn =>
    have hs : u.size ≤ id := h.size ▸ get?_eq_none_iff.mp hn
    rw [namesUp, get?_eq_none_iff.mpr hs]
  case case2 id m hm hp =>
    have ⟨n, hn, hr⟩ := h.exists_counterpart hm
    rw [namesUp]
    simp only [hn, ←hr.parent, hp, hr.name]
  case case3 id m hm p hp hi =>
    have ⟨n, hn, hr⟩ := h.exists_counterpart hm
    rw [namesUp]
    simp only [hn, ←hr.parent, hp, hr.name]
    congr 1
    split
    case isTrue hlt => exact hi hlt
    case isFalse    => rfl

theorem pathOf_eq (h : t.Reordered u) (id : Nat) : u.pathOf id = t.pathOf id := by
  rw [pathOf, pathOf, h.namesUp_eq]

theorem evaluate_eq (h : t.Reordered u) (ht : t.WellFormed) (hu : u.WellFormed) (s : Selector) :
    (u.evaluate s).map Answer.found = (t.evaluate s).map Answer.found := by
  have ⟨b, hb, hf⟩ := ht.exists_evaluate s
  have ⟨c, hc, hf'⟩ := hu.exists_evaluate s
  have hd : ∀ a ∈ s.alternatives, u.designated a = t.designated a := by
    intro a _
    exact ((h.alike a.comparisons).designated ht hu (List.Subset.refl _)).trans (List.map_id _)
  rw [hb, hc, Option.map_some, Option.map_some, hf, hf', List.flatMap_congr hd]

end Reordered
end Tree
end TreeQuery
