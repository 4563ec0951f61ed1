import TreeQuery.Proofs.Evaluation.Comparison
import TreeQuery.Proofs.Evaluation.DepthFirst

namespace TreeQuery

variable {t : Tree} {c : Cursor} {s s' : Segment} {path path' : List Segment} {a b : Alternative}
  {list : Listing} {size : Nat}

theorem Filter.acceptsAll_iff {f : Filter} : f.acceptsAll ↔ f.comparisons = [] := by
  have hc (c : Condition) : c.comparison? = none ↔ c.value = .any := by
    match c with
    | ⟨_, .any⟩       => simp [Condition.comparison?]
    | ⟨_, .exactly _⟩ => simp [Condition.comparison?]
  simp [acceptsAll, comparisons, List.filterMap_eq_nil_iff, hc]

-- What a key denotes at a position. The level above the root has no properties.
def Cursor.property? (t : Tree) (key : String) : Cursor → Option String
  | node id   => (t.get? id).bind (·.property? key)
  | aboveRoot => none

-- Nodes and the level above the root pass a filter by the same rule, and they pass a segment
-- without a filter as they pass a filter that compares nothing.
theorem Cursor.passes_iff (hc : c.Within t) :
    c.passes t s.filter ↔ ∀ p ∈ s.comparisons, c.property? t p.1 = some p.2 := by
  match c, s with
  | .aboveRoot, ⟨_, none⟩   => simp [passes, Segment.comparisons]
  | .node _,    ⟨_, none⟩   => simp [passes, Segment.comparisons]
  | .aboveRoot, ⟨_, some f⟩ =>
    simp [passes, Segment.comparisons, property?, Filter.acceptsAll_iff,
      List.eq_nil_iff_forall_not_mem]
  | .node _,    ⟨_, some f⟩ =>
    obtain ⟨n, hn⟩ := Tree.exists_get?_of_lt_size hc
    simp [passes, Segment.comparisons, property?, hn, Filter.accepts_iff]

-- The segments take the same step, and what their filters compare is the same set.
structure Segment.ComparesAlike (s s' : Segment) : Prop where
  step                : s.step = s'.step
  mem_comparisons_iff : ∀ p, p ∈ s.comparisons ↔ p ∈ s'.comparisons

-- The alternatives differ in filters only, and their filters compare the same.
structure Alternative.ComparesAlike (a b : Alternative) : Prop where
  anchor : a.anchor = b.anchor
  first  : a.first.ComparesAlike b.first
  path   : List.Forall₂ Segment.ComparesAlike a.path b.path

namespace Tree

-- The alternatives find the same nodes in the same order and each of them as often, with any tables
-- of the same size, whatever evaluations they were used for before.
def Interchangeable (t : Tree) (a b : Alternative) : Prop :=
  ∀ {size : Nat} {v v' : Visits}, v.Ready size → v'.Ready size →
    ∃ w w', t.walk v a = some w ∧ t.walk v' b = some w' ∧ w.found = w'.found

theorem WellFormed.interchangeable (hw : t.WellFormed)
    (h : ∀ {size list}, t.Lists size list → t.designatedBy list a = t.designatedBy list b) :
    t.Interchangeable a b := by
  intro size v v' hv hv'
  have hl : t.Lists size _ := hw.lists_filter
  have ⟨w, ha, hf, _⟩   := hw.walk_eq hl hv a
  have ⟨w', hb, hf', _⟩ := hw.walk_eq hl hv' b
  exact ⟨w, w', ha, hb, by rw [hf, hf', h hl]⟩

end Tree

theorem Segment.ComparesAlike.passes_eq (h : s.ComparesAlike s') (hc : c.Within t) :
    c.passes t s.filter = c.passes t s'.filter := by
  rw [Bool.eq_iff_iff, Cursor.passes_iff hc, Cursor.passes_iff hc]
  exact forall_congr' fun p => imp_congr_left <| h.mem_comparisons_iff p

namespace Tree.WellFormed

theorem reach_eq_of_comparesAlike (hw : t.WellFormed) (hl : t.Lists size list)
    (h : List.Forall₂ Segment.ComparesAlike path path') (hc : c.Within t) :
    t.reach list path c = t.reach list path' c := by
  induction h generalizing c
  case nil => rfl
  case cons hs _ hi =>
    have hn := hw.within_next hl hc
    rw [reach, reach, ←hs.step, List.filter_congr fun d hd => hs.passes_eq (hn _ d hd)]
    exact List.flatMap_congr fun d hd => hi <| within_filter (hn _) d hd

theorem designatedBy_eq_of_comparesAlike (hw : t.WellFormed) (hl : t.Lists size list)
    (h : a.ComparesAlike b) : t.designatedBy list a = t.designatedBy list b := by
  have hc : ∀ c ∈ (t.starts list a.first.step a.anchor).map Cursor.node, c.Within t :=
    hw.within_starts hl
  rw [designatedBy, designatedBy, ←h.anchor, ←h.first.step,
    List.filter_congr fun c hm => h.first.passes_eq (hc c hm)]
  congr 1
  exact List.flatMap_congr fun c hm =>
    hw.reach_eq_of_comparesAlike hl h.path <| within_filter hc c hm

end Tree.WellFormed

namespace Tree

-- Of a filter nothing counts but the set of its comparisons, at nodes and above the root.
theorem Reachable.interchangeable_of_comparesAlike (h : t.Reachable) (hab : a.ComparesAlike b) :
    t.Interchangeable a b :=
  h.wellFormed.interchangeable fun hl => h.wellFormed.designatedBy_eq_of_comparesAlike hl hab

-- The level above the root passes a filter that compares nothing, and behind it a comparison is
-- repeated.
theorem interchangeable_above_root :
    let n : Node := ⟨"a", some "x", none, none, .empty, [], none⟩
    let t := (ofRoot n).attach 0 n
    let isX : Condition := ⟨"type", .exactly "x"⟩
    let any : Condition := ⟨"size", .any⟩
    let a : Alternative := ⟨.root, ⟨.wildcard, none⟩,
      [⟨.parent, some ⟨[any]⟩⟩, ⟨.wildcard, some ⟨[isX, any, isX]⟩⟩]⟩
    let b : Alternative := ⟨.root, ⟨.wildcard, some ⟨[]⟩⟩,
      [⟨.parent, none⟩, ⟨.wildcard, some ⟨[isX]⟩⟩]⟩
    t.Reachable ∧ a.ComparesAlike b ∧
      ∃ w w', t.walk (.ofTree t) a = some w ∧ t.walk (.ofTree t) b = some w' ∧
        w.found = [0] ∧ w'.found = [0] := by
  intro n t isX any a b
  have h : t.Reachable := .attach (.ofRoot n) (by decide)
  have hab : a.ComparesAlike b := {
    anchor := rfl
    first  := ⟨rfl, by simp [a, b, Segment.comparisons, Filter.comparisons]⟩
    path   := by
      refine .cons ⟨rfl, ?above⟩ <| .cons ⟨rfl, ?root⟩ .nil <;>
        simp [isX, any, Segment.comparisons, Filter.comparisons, Condition.comparison?]
  }
  have hz : (Visits.ofTree t).Ready t.size := .ofSize
  obtain ⟨w, w', hw, hw', hf⟩ := h.interchangeable_of_comparesAlike hab hz hz
  have hf' : (t.walk (.ofTree t) b).map Walk.found = some [0] := by decide +kernel
  have hf' : w'.found = [0] := by simpa [hw'] using hf'
  exact ⟨h, hab, w, w', hw, hw', hf.trans hf', hf'⟩

end Tree
end TreeQuery
