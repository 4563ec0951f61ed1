import Mathlib.Data.Finset.Card
import TreeQuery.Proofs.Evaluation.Closure
import TreeQuery.Proofs.Evaluation.Union

namespace TreeQuery

-- A step that stays on its level or leads to the next one below.
def Step.isShort : Step → Bool
  | .named _ | .wildcard | .current => true
  | .descendants | .parent          => false

-- How many operators of an alternative lead over several levels at once. Those are the start at all
-- nodes and each step to descendants, but behind a start at all nodes the first step merely picks
-- some of them.
def Alternative.leaps (a : Alternative) : Nat :=
  match a.anchor with
  | .root     => (a.first :: a.path).countP (·.step = .descendants)
  | .anywhere => a.path.countP (·.step = .descendants) + 1

theorem Step.isShort_iff {s : Step} : s.isShort ↔ s ≠ .parent ∧ s ≠ .descendants := by
  cases s <;> simp [isShort]

theorem isShort_of_countP {path : List Segment} (hp : ∀ s ∈ path, s.step ≠ .parent)
    (hc : path.countP (·.step = .descendants) = 0) : ∀ s ∈ path, s.step.isShort := by
  rw [List.countP_eq_zero] at hc
  exact fun s hs => Step.isShort_iff.mpr ⟨hp s hs, by simpa using hc s hs⟩

theorem nodup_filterMap_id? {cs : List Cursor} (h : cs.Nodup) :
    (cs.filterMap Cursor.id?).Nodup := by
  refine h.filterMap fun c d id hc hd => ?_
  cases c <;> cases d <;> simp_all [Cursor.id?]

namespace Tree

variable {t : Tree} {a : Alternative} {s : Step} {path : List Segment} {c : Cursor}
  {cs : List Cursor} {v : Visits} {size k n : Nat}

-- What each segment of a path preserves, the whole path preserves.
theorem reach_induction {P : List Cursor → Prop} {list : Listing}
    (hs : ∀ s ∈ path, ∀ cs, P cs →
      P ((cs.flatMap (·.next t list s.step)).filter (·.passes t s.filter)))
    (h : P cs) : P (cs.flatMap (t.reach list path)) := by
  induction path generalizing cs
  case nil => simpa [reach] using h
  case cons s path hi =>
    obtain ⟨hs, hpath⟩ := List.forall_mem_cons.mp hs
    rw [flatMap_reach_cons]
    exact hi hpath <| hs cs h

-- The positions are nodes of one generation below the root, in pre-order.
def InGeneration (t : Tree) (k : Nat) (cs : List Cursor) : Prop :=
  cs.Sublist <| (t.generation k t.root).map .node

theorem next_sublist_children (hs : s.isShort) (hc : s ≠ .current) :
    (c.next t t.below s).Sublist ((c.children t).map .node) := by
  cases s <;> simp_all [Step.isShort, Cursor.next]
  case named => exact List.filter_sublist.map _

namespace InGeneration

theorem filter {p : Cursor → Bool} (h : t.InGeneration k cs) : t.InGeneration k (cs.filter p) :=
  List.filter_sublist.trans h

theorem found_sublist (h : t.InGeneration k cs) :
    (cs.filterMap Cursor.id?).Sublist (t.generation k t.root) := by
  have hf : ((t.generation k t.root).map Cursor.node).filterMap Cursor.id? =
      t.generation k t.root := by
    rw [List.filterMap_map]
    exact List.filterMap_some
  exact hf ▸ List.Sublist.filterMap Cursor.id? h

theorem starts {f : Option Filter} (hd : s ≠ .descendants) :
    t.InGeneration 0 (((t.starts t.below s .root).map .node).filter (·.passes t f)) := by
  refine .filter <| List.Sublist.map _ ?_
  cases s <;> simp only [Tree.starts, generation]
  case named              => exact List.filter_sublist
  case wildcard | current => exact .refl _
  case parent             => exact List.nil_sublist _
  case descendants        => exact absurd rfl hd

theorem flatMap_next (h : t.InGeneration k cs) (hs : s.isShort) :
    ∃ k', t.InGeneration k' (cs.flatMap (·.next t t.below s)) := by
  by_cases hc : s = .current
  case pos => exact ⟨k, by simpa [hc, Cursor.next] using h⟩
  case neg =>
    refine ⟨k + 1, (sublist_flatMap h fun _ _ => next_sublist_children hs hc).trans ?_⟩
    rw [generation_succ, List.flatMap_map, List.map_flatMap]
    exact .refl _

theorem flatMap_reach (h : t.InGeneration k cs) (hs : ∀ s ∈ path, s.step.isShort) :
    ∃ k', t.InGeneration k' (cs.flatMap (t.reach t.below path)) := by
  refine reach_induction (P := fun cs => ∃ k, t.InGeneration k cs) (fun s hm cs h => ?_) ⟨k, h⟩
  have ⟨_, h⟩ := h
  have ⟨k', h⟩ := h.flatMap_next (hs s hm)
  exact ⟨k', h.filter⟩

end InGeneration

namespace WellFormed

theorem nodup_of_inGeneration (hw : t.WellFormed) (h : t.InGeneration k cs) : cs.Nodup := by
  have hn : (t.generation k t.root).Nodup := hw.generation_sublist_preorder.nodup hw.nodup_preorder
  exact List.Sublist.nodup h <| hn.map fun _ _ => Cursor.node.inj

-- Nodes of one generation have no descendants in common.
theorem nodup_flatMap_descendants (hw : t.WellFormed) (h : t.InGeneration k cs) :
    (cs.flatMap (·.next t t.below .descendants)).Nodup := by
  have hn : (((t.generation k t.root).flatMap t.preorder).map Cursor.node).Nodup :=
    hw.nodup_generation_flatMap_preorder.map fun _ _ => Cursor.node.inj
  refine hn.sublist <| (List.Sublist.flatMap h _).trans ?_
  rw [List.flatMap_map, List.map_flatMap]
  exact sublist_flatMap (.refl _) fun _ _ => hw.below_sublist_preorder.map _

theorem nodup_children (hw : t.WellFormed) : (c.children t).Nodup := by
  cases c
  case node id   => exact (hw.children_sorted id).imp ne_of_lt
  case aboveRoot => exact List.nodup_singleton _

-- No two positions have a child in common.
theorem nodup_flatMap_children (hw : t.WellFormed) (h : cs.Nodup) :
    (cs.flatMap fun c => (c.children t).map Cursor.node).Nodup := by
  refine List.nodup_flatMap.mpr ⟨fun c _ => ?each, h.imp fun {c d} hn e hc hd => ?apart⟩
  case each  => exact hw.nodup_children.map fun _ _ => Cursor.node.inj
  case apart =>
    have he : e.Within t := within_map_node hw.lt_size_of_mem_cursor_children e hc
    have hc := hw.mem_map_children_iff he |>.mp hc
    have hd := hw.mem_map_children_iff he |>.mp hd
    exact hn <| Option.some.inj <| hc.symm.trans hd

theorem nodup_flatMap_next (hw : t.WellFormed) (h : cs.Nodup) (hs : s.isShort) :
    (cs.flatMap (·.next t t.below s)).Nodup := by
  by_cases hc : s = .current
  case pos => simpa [hc, Cursor.next] using h
  case neg =>
    exact (hw.nodup_flatMap_children h).sublist <|
      sublist_flatMap (.refl _) fun _ _ => next_sublist_children hs hc

theorem nodup_flatMap_reach (hw : t.WellFormed) (h : cs.Nodup)
    (hs : ∀ s ∈ path, s.step.isShort) : (cs.flatMap (t.reach t.below path)).Nodup :=
  reach_induction (fun s hm _ h => (hw.nodup_flatMap_next h (hs s hm)).filter _) h

-- Up to the step to descendants all positions are on one level. Behind it they are merely distinct.
theorem nodup_flatMap_reach_of_inGeneration (hw : t.WellFormed) (h : t.InGeneration k cs)
    (hp : ∀ s ∈ path, s.step ≠ .parent) (hc : path.countP (·.step = .descendants) ≤ 1) :
    (cs.flatMap (t.reach t.below path)).Nodup := by
  induction path generalizing cs k
  case nil => simpa [reach] using hw.nodup_of_inGeneration h
  case cons s path hi =>
    obtain ⟨hs, hp⟩ := List.forall_mem_cons.mp hp
    rw [flatMap_reach_cons]
    by_cases hd : s.step = .descendants
    case pos =>
      have hc : path.countP (·.step = .descendants) = 0 := by simpa [hd] using hc
      have hn := (hw.nodup_flatMap_descendants h).filter (·.passes t s.filter)
      exact hw.nodup_flatMap_reach (hd ▸ hn) <| isShort_of_countP hp hc
    case neg =>
      have hc : path.countP (·.step = .descendants) ≤ 1 := by simpa [hd] using hc
      obtain ⟨_, h⟩ := h.flatMap_next <| Step.isShort_iff.mpr ⟨hs, hd⟩
      exact hi h.filter hp hc

theorem nodup_starts (hw : t.WellFormed) (a : Anchor) : (t.starts t.below s a).Nodup := by
  have hr : (t.below [t.root]).Nodup := by simpa using hw.nodup_preorder
  cases a
  case root =>
    cases s <;> simp only [starts]
    case named              => exact (List.nodup_singleton _).filter _
    case wildcard | current => exact List.nodup_singleton _
    case parent             => exact List.nodup_nil
    case descendants        => exact hw.nodup_below
  case anywhere =>
    cases s <;> simp only [starts]
    case wildcard | current           => exact hr
    case named | descendants | parent => exact hr.filter _

theorem nodup_designated (hw : t.WellFormed) (hp : ∀ s ∈ a.path, s.step ≠ .parent)
    (hl : a.leaps ≤ 1) : (t.designated a).Nodup := by
  have hn := (hw.nodup_starts (s := a.first.step) a.anchor).map fun _ _ => Cursor.node.inj
  have hn := hn.filter (·.passes t a.first.filter)
  refine nodup_filterMap_id? ?_
  match a, hn with
  | ⟨.anywhere, first, path⟩, hn =>
    exact hw.nodup_flatMap_reach hn <| isShort_of_countP hp <| by simpa [Alternative.leaps] using hl
  | ⟨.root, first, path⟩,     hn =>
    by_cases hd : first.step = .descendants
    case pos =>
      exact hw.nodup_flatMap_reach hn <| isShort_of_countP hp <| by
        simpa [Alternative.leaps, hd] using hl
    case neg =>
      exact hw.nodup_flatMap_reach_of_inGeneration (.starts hd) hp <| by
        simpa [Alternative.leaps, hd] using hl

theorem exists_designated_sublist (hp : ∀ s ∈ a.path, s.step ≠ .parent) (hl : a.leaps = 0) :
    ∃ k, (t.designated a).Sublist (t.generation k t.root) := by
  match a, hl with
  | ⟨.root, first, path⟩, hl =>
    have hd : first.step ≠ .descendants ∧ path.countP (·.step = .descendants) = 0 := by
      simpa [Alternative.leaps, List.countP_cons, and_comm] using hl
    have hg : t.InGeneration 0 _ := .starts (f := first.filter) hd.left
    have ⟨k, hg⟩ := hg.flatMap_reach <| isShort_of_countP hp hd.right
    exact ⟨k, hg.found_sublist⟩

-- The log of an evaluation tells for each alternative how many nodes it finds.
theorem exists_evaluate_evaluated (hw : t.WellFormed) (s : Selector) :
    ∃ answer, t.evaluate s = some answer ∧
      ∀ a n, .evaluatedAlternative a n ∈ answer.log ↔
        a ∈ s.alternatives ∧ n = (t.designated a).length := by
  have ⟨ws, hws, hf⟩ := hw.exists_walks s
  have hm (a : Alternative) (n : Nat) :=
    congrArg ((a, n) ∈ List.map (fun (a, found) => (a, found.length)) ·) hf
  refine ⟨_, by simp only [evaluate, hws]; rfl, fun a n => ?_⟩
  simpa [Walk.log, eq_comm (a := n)] using hm a n

end WellFormed

-- Without steps to the parent and with at most one operator over several levels nothing is found
-- twice. Without any such operator all that is found is on one level.
theorem Reachable.nodup_found (h : t.Reachable) (hv : v.Ready size) (hs : t.size ≤ size)
    (hp : ∀ s ∈ a.path, s.step ≠ .parent) (hl : a.leaps ≤ 1) :
    ∃ w, t.walk v a = some w ∧ w.found.Nodup ∧
      (∀ s, a ∈ s.alternatives → ∃ answer, t.evaluate s = some answer ∧
        ∀ n, .evaluatedAlternative a n ∈ answer.log ↔ n = w.found.toFinset.card) ∧
      (a.leaps = 0 →
        w.found.Sublist (t.preorder t.root) ∧ ∃ k, ∀ id ∈ w.found, t.depth id = k) := by
  have hw := h.wellFormed
  have ⟨w, hwalk, hf, _⟩ := hw.walk_eq (hw.lists hs) hv a
  have hf : w.found = t.designated a := hf
  have hn : w.found.Nodup := hf ▸ hw.nodup_designated hp hl
  refine ⟨w, hwalk, hn, fun s ha => ?logged, fun hl => ?level⟩
  case logged =>
    have ⟨answer, he, hlog⟩ := hw.exists_evaluate_evaluated s
    refine ⟨answer, he, fun n => ?_⟩
    rw [hlog, List.toFinset_card_of_nodup hn, hf]
    exact and_iff_right ha
  case level =>
    have ⟨k, hg⟩ := WellFormed.exists_designated_sublist (t := t) hp hl
    rw [hf]
    refine ⟨hg.trans hw.generation_sublist_preorder, t.depth t.root + k, fun id hi => ?_⟩
    exact hw.depth_of_mem_generation <| hg.subset hi

-- The nodes below the two children of the root stay apart, and the alternative that finds them
-- shares its table with one that lists the children.
theorem nodup_found_siblings :
    let n : Node := ⟨"a", none, none, none, .empty, [], none⟩
    let t := (ofRoot n).afterCalls [(0, n), (0, n), (1, n), (2, n)]
    let first : Segment := ⟨.wildcard, none⟩
    let a : Alternative := ⟨.root, first, [⟨.wildcard, none⟩]⟩
    let b : Alternative := ⟨.root, first, [⟨.wildcard, none⟩, ⟨.descendants, none⟩]⟩
    t.Reachable ∧ a.leaps = 0 ∧ b.leaps = 1 ∧
      (∃ w, t.walk (.ofTree t) b = some w ∧ w.found.Nodup) ∧
      ∃ w answer, t.walk (.ofTree t) a = some w ∧ w.found = [1, 2] ∧
        w.found.Sublist (t.preorder 0) ∧ (∃ k, ∀ id ∈ w.found, t.depth id = k) ∧
        t.evaluate ⟨[b, a]⟩ = some answer ∧ .evaluatedAlternative a 2 ∈ answer.log := by
  intro n t first a b
  have h : t.Reachable := (Reachable.ofRoot n).afterCalls
  have hv : (Visits.ofTree t).Ready t.size := .ofSize
  have ⟨w, hwa, _, hlog, hlevel⟩ := h.nodup_found hv le_rfl (a := a) (by decide) (by decide)
  have ⟨w', hwb, hn, _⟩ := h.nodup_found hv le_rfl (a := b) (by decide) (by decide)
  have ⟨answer, he, hcount⟩ := hlog ⟨[b, a]⟩ (by simp)
  have ⟨hsub, hdepth⟩ := hlevel (by decide)
  have hf : (t.walk (.ofTree t) a).map Walk.found = some [1, 2] := by decide +kernel
  have hf : w.found = [1, 2] := by simpa [hwa] using hf
  refine ⟨h, by decide, by decide, ⟨w', hwb, hn⟩, w, answer, hwa, hf, hsub, hdepth, he, ?_⟩
  exact (hcount 2).mpr <| by rw [hf]; rfl

end Tree
end TreeQuery
