import TreeQuery.Proofs.Evaluation.Filtering

namespace TreeQuery

variable {t : Tree} {s u dot : Segment} {pre path path' : List Segment} {a b : Alternative}
  {c : Cursor} {cs : List Cursor} {list : Listing} {size : Nat}

def Segment.conditions (s : Segment) : List Condition :=
  s.filter.elim [] Filter.conditions

theorem Segment.comparisons_eq : s.comparisons = s.conditions.filterMap Condition.comparison? := by
  match s with
  | ⟨_, none⟩   => rfl
  | ⟨_, some _⟩ => rfl

-- A segment that stands for `s` and the current position `dot` right behind it. It takes the step
-- of the first one and has the conditions of both.
structure Segment.IsFusion (u s dot : Segment) : Prop where
  current    : dot.step = .current
  step       : u.step = s.step
  conditions : u.conditions = s.conditions ++ dot.conditions

-- One segment and the current position right behind it are made one, at the start or on the way.
inductive Alternative.Fuses : Alternative → Alternative → Prop
  | first {anchor : Anchor} {s dot u : Segment} {path : List Segment} :
    u.IsFusion s dot → Fuses ⟨anchor, s, dot :: path⟩ ⟨anchor, u, path⟩
  | path {anchor : Anchor} {first s dot u : Segment} {pre post : List Segment} :
    u.IsFusion s dot →
    Fuses ⟨anchor, first, pre ++ s :: dot :: post⟩ ⟨anchor, first, pre ++ u :: post⟩

theorem Segment.isFusion_self : s.IsFusion s ⟨.current, none⟩ where
  current    := rfl
  step       := rfl
  conditions := (List.append_nil _).symm

-- A position passes both filters, one after the other, if it passes the one with all conditions.
theorem Segment.IsFusion.passes_eq (h : u.IsFusion s dot) (hc : c.Within t) :
    c.passes t u.filter = (c.passes t s.filter && c.passes t dot.filter) := by
  rw [Bool.eq_iff_iff, Bool.and_eq_true, Cursor.passes_iff hc, Cursor.passes_iff hc,
    Cursor.passes_iff hc, ←List.forall_mem_append, Segment.comparisons_eq, h.conditions,
    List.filterMap_append, ←Segment.comparisons_eq, ←Segment.comparisons_eq]

namespace Tree

theorem flatMap_reach_current (h : dot.step = .current) :
    cs.flatMap (t.reach list (dot :: path)) =
      (cs.filter (·.passes t dot.filter)).flatMap (t.reach list path) := by
  rw [flatMap_reach_cons, h]
  simp [Cursor.next]

theorem flatMap_reach_fusion (h : u.IsFusion s dot) (hc : ∀ c ∈ cs, c.Within t) :
    (cs.filter (·.passes t s.filter)).flatMap (t.reach list (dot :: path)) =
      (cs.filter (·.passes t u.filter)).flatMap (t.reach list path) := by
  rw [flatMap_reach_current h.current, List.filter_filter,
    List.filter_congr fun c hm => (Bool.and_comm ..).trans (h.passes_eq (hc c hm)).symm]

namespace WellFormed

theorem reach_fusion (hw : t.WellFormed) (hl : t.Lists size list) (h : u.IsFusion s dot)
    (hc : c.Within t) : t.reach list (s :: dot :: path) c = t.reach list (u :: path) c := by
  rw [reach, reach, h.step]
  exact flatMap_reach_fusion h <| hw.within_next hl hc s.step

-- What is the same from all positions is the same behind any segments.
theorem reach_append_congr (hw : t.WellFormed) (hl : t.Lists size list)
    (h : ∀ c, c.Within t → t.reach list path c = t.reach list path' c) (hc : c.Within t) :
    t.reach list (pre ++ path) c = t.reach list (pre ++ path') c := by
  induction pre generalizing c
  case nil => exact h c hc
  case cons s pre hi =>
    exact List.flatMap_congr fun d hd => hi <| within_filter (hw.within_next hl hc s.step) d hd

theorem designatedBy_eq_of_fuses (hw : t.WellFormed) (hl : t.Lists size list) (h : a.Fuses b) :
    t.designatedBy list a = t.designatedBy list b := by
  cases h
  case first hu =>
    simp only [designatedBy, hu.step]
    rw [flatMap_reach_fusion hu <| hw.within_starts hl]
  case path hu  =>
    simp only [designatedBy]
    congr 1
    refine List.flatMap_congr fun c hm => hw.reach_append_congr hl (fun c hc => ?_) ?_
    · exact hw.reach_fusion hl hu hc
    · exact within_filter (hw.within_starts hl) c hm

end WellFormed

-- A current position fuses with the segment in front of it, whatever that leads to, so without a
-- filter it can be left out wherever it stands.
theorem Reachable.current_fuses (h : t.Reachable) :
    (∀ {a b}, a.Fuses b → t.Interchangeable a b) ∧
    ∀ anchor first pre post, t.Interchangeable
      ⟨anchor, first, pre ++ ⟨.current, none⟩ :: post⟩ ⟨anchor, first, pre ++ post⟩ := by
  have hfuses {a b} (hab : a.Fuses b) : t.Interchangeable a b :=
    h.wellFormed.interchangeable fun hl => h.wellFormed.designatedBy_eq_of_fuses hl hab
  refine ⟨hfuses, fun anchor first pre post => hfuses ?_⟩
  rcases List.eq_nil_or_concat pre with rfl | ⟨pre, s, rfl⟩
  case inl => exact .first Segment.isFusion_self
  case inr =>
    rw [List.concat_eq_append, List.append_assoc, List.append_assoc]
    exact .path Segment.isFusion_self

-- The segment leads above the root, where both filters are passed, and from there the way goes down
-- again.
theorem current_fuses_above_root :
    let n : Node := ⟨"a", none, none, none, .empty, [], none⟩
    let t := (ofRoot n).attach 0 n
    let any (key : String) : Condition := ⟨key, .any⟩
    let first : Segment := ⟨.wildcard, none⟩
    let s : Segment := ⟨.parent, some ⟨[any "type"]⟩⟩
    let dot : Segment := ⟨.current, some ⟨[any "size", any "type"]⟩⟩
    let u : Segment := ⟨.parent, some ⟨[any "type", any "size", any "type"]⟩⟩
    let a : Alternative := ⟨.root, first, [⟨.current, none⟩, s, dot, first]⟩
    let b : Alternative := ⟨.root, first, [⟨.current, none⟩, u, first]⟩
    t.Reachable ∧ a.Fuses b ∧
      (∃ w w', t.walk (.ofTree t) a = some w ∧ t.walk (.ofTree t) b = some w' ∧
        w.found = [0] ∧ w'.found = [0]) ∧
      t.Interchangeable b ⟨.root, first, [u, first]⟩ := by
  intro n t any first s dot u a b
  have h : t.Reachable := .attach (.ofRoot n) (by decide)
  have hu : u.IsFusion s dot := ⟨rfl, rfl, rfl⟩
  have hab : a.Fuses b := @Alternative.Fuses.path .root first s dot u [⟨.current, none⟩] [first] hu
  have ⟨hfuses, hdrop⟩ := h.current_fuses
  have hz : (Visits.ofTree t).Ready t.size := .ofSize
  have ⟨w, w', hw, hw', hf⟩ := hfuses hab hz hz
  have hf' : (t.walk (.ofTree t) b).map Walk.found = some [0] := by decide +kernel
  have hf' : w'.found = [0] := by simpa [hw'] using hf'
  exact ⟨h, hab, ⟨w, w', hw, hw', hf.trans hf', hf'⟩, hdrop .root first [] [u, first]⟩

end Tree
end TreeQuery
