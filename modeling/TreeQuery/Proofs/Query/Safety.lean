import Mathlib.Data.List.Perm.Subperm
import TreeQuery.Proofs.Query.Alternation
import TreeQuery.Report

namespace TreeQuery

-- A walk together with a second one that goes on where it ends.
def Walk.append (w w' : Walk) : Walk :=
  { w' with applied := w.applied ++ w'.applied }

namespace Tree

variable {t : Tree} {v : Visits} {c : Cursor} {cs : List Cursor} {ids : List Nat}

theorem exists_sift {p : Node → Bool} (hb : ∀ id ∈ ids, id < t.size) :
    ∃ kept, t.sift p ids = some kept ∧ ∀ id ∈ kept, id < t.size :=
  ⟨_, sift_eq hb, fun id h => hb id (List.mem_of_mem_filter h)⟩

theorem exists_filtered {f : Option Filter} (hc : ∀ c ∈ cs, c.Within t) :
    ∃ kept, t.filtered f cs = some kept ∧ ∀ c ∈ kept, c.Within t :=
  ⟨_, filtered_eq hc, within_filter hc⟩

-- What stands on the stack and what is below it are nodes of the tree, whatever the table holds.
theorem WellFormed.collect_lt_size (hw : t.WellFormed) (hb : ∀ id ∈ ids, id < t.size) :
    ∀ id ∈ (t.collect v ids).1, id < t.size := by
  induction v, ids using collect.induct t
  case case1 => simp [collect]
  case case2 id stack ho _ _ _ hi =>
    obtain ⟨hid, hb⟩ := List.forall_mem_cons.mp hb
    have hs : ∀ j ∈ t.children id ++ stack, j < t.size :=
      List.forall_mem_append.mpr ⟨fun _ => hw.mem_children_lt_size, hb⟩
    simpa [collect, ho] using ⟨hid, hi hs⟩
  case case3 ho hi =>
    simpa [collect, ho] using hi (List.forall_mem_cons.mp hb).right

theorem WellFormed.exists_successors (hw : t.WellFormed) (hc : c.Within t) (s : Step) :
    ∃ next v', t.successors v c s = some (next, v') ∧ ∀ d ∈ next, d.Within t := by
  have hb : ∀ id ∈ c.children t, id < t.size := hw.lt_size_of_mem_cursor_children
  cases s
  case named name =>
    have ⟨kept, hk, hb⟩ := exists_sift (p := (·.name = name)) hb
    exact ⟨_, v, by simp only [successors, hk]; rfl, within_map_node hb⟩
  case wildcard    => exact ⟨_, v, rfl, within_map_node hb⟩
  case descendants => exact ⟨_, _, rfl, within_map_node <| hw.collect_lt_size hb⟩
  case current     => exact ⟨_, v, rfl, by simpa using hc⟩
  case parent      => exact ⟨_, v, rfl, fun _ h => hw.within_parent? (Option.mem_toList.mp h)⟩

theorem WellFormed.exists_step (hw : t.WellFormed) (hc : ∀ c ∈ cs, c.Within t) (s : Step) :
    ∃ next v', t.step s v cs = some (next, v') ∧ ∀ d ∈ next, d.Within t := by
  induction cs generalizing v
  case nil => exact ⟨[], v, rfl, by simp⟩
  case cons c cs hi =>
    have ⟨hc, hcs⟩ := List.forall_mem_cons.mp hc
    have ⟨found, v₁, h₁, hf⟩ := hw.exists_successors (v := v) hc s
    have ⟨rest, v₂, h₂, hr⟩ := hi (v := v₁) hcs
    exact ⟨found ++ rest, v₂, by simp [step, h₁, h₂], List.forall_mem_append.mpr ⟨hf, hr⟩⟩

theorem WellFormed.exists_follow (hw : t.WellFormed) (hc : ∀ c ∈ cs, c.Within t)
    (path : List Segment) :
    ∃ w, t.follow v cs path = some w ∧ ∀ c ∈ w.cursors, c.Within t := by
  induction path generalizing v cs
  case nil => cases cs <;> exact ⟨_, by rw [follow], hc⟩
  case cons s path hi =>
    cases cs
    case nil => exact ⟨_, by rw [follow], hc⟩
    case cons c cs =>
      obtain ⟨next, v₁, h₁, hn⟩ := hw.exists_step (v := v) hc s.step
      obtain ⟨kept, h₂, hk⟩ := exists_filtered (f := s.filter) hn
      obtain ⟨w, h₃, hw⟩ := hi (v := v₁) hk
      refine ⟨{ w with applied := (s, kept.length) :: w.applied }, ?_, hw⟩
      simp only [follow, h₁, h₂, h₃, Option.bind_eq_bind, Option.bind_some]
      rfl

theorem WellFormed.exists_firstStep (hw : t.WellFormed) (s : Step) (a : Anchor) :
    ∃ ids v', t.firstStep v s a = some (ids, v') ∧ ∀ id ∈ ids, id < t.size := by
  have hr : ∀ id ∈ [t.root], id < t.size := by simpa using hw.root_lt
  cases a
  case root =>
    cases s
    case named name  =>
      obtain ⟨kept, hk, hb⟩ := exists_sift (p := (·.name = name)) hr
      exact ⟨kept, v, by simp only [firstStep, rootStep, hk]; rfl, hb⟩
    case wildcard    => exact ⟨_, v, rfl, hr⟩
    case current     => exact ⟨_, v, rfl, hr⟩
    case parent      => exact ⟨_, v, rfl, by simp⟩
    case descendants =>
      exact ⟨_, _, rfl, hw.collect_lt_size fun _ => hw.mem_children_lt_size⟩
  case anywhere =>
    have hb : ∀ id ∈ (t.collect v.newRound [t.root]).1, id < t.size := hw.collect_lt_size hr
    cases s
    case named name  =>
      obtain ⟨kept, hk, hb⟩ := exists_sift (p := (·.name = name)) hb
      exact ⟨kept, _, by simp only [firstStep, deepStep, hk]; rfl, hb⟩
    case wildcard    => exact ⟨_, _, rfl, hb⟩
    case current     => exact ⟨_, _, rfl, hb⟩
    case parent      => exact ⟨_, _, rfl, fun id h => hb id (List.mem_of_mem_filter h)⟩
    case descendants => exact ⟨_, _, rfl, fun id h => hb id (List.mem_of_mem_filter h)⟩

theorem WellFormed.exists_walk (hw : t.WellFormed) (v : Visits) (a : Alternative) :
    ∃ w, t.walk v a = some w ∧ ∀ c ∈ w.cursors, c.Within t := by
  have ⟨ids, v₁, h₁, hb⟩ := hw.exists_firstStep (v := v) a.first.step a.anchor
  have ⟨kept, h₂, hk⟩ := exists_filtered (f := a.first.filter) (within_map_node hb)
  have ⟨w, h₃, hc⟩ := hw.exists_follow (v := v₁) hk a.path
  exact ⟨w, by simp only [walk, h₁, h₂, h₃, Option.bind_eq_bind, Option.bind_some], hc⟩

-- A path can be followed in two parts, one after the other.
theorem follow_append (path path' : List Segment) :
    t.follow v cs (path ++ path') = (t.follow v cs path).bind fun w =>
      (t.follow w.visits w.cursors path').map w.append := by
  induction path generalizing v cs
  case nil =>
    cases cs
    case nil       => simp [follow, Walk.append]
    case cons c cs =>
      simp only [List.nil_append, follow, Option.bind_some]
      cases t.follow v (c :: cs) path' <;> rfl
  case cons s path hi =>
    cases cs
    case nil       => simp [follow, Walk.append]
    case cons c cs =>
      rcases h₁ : t.step s.step v (c :: cs) with _ | ⟨next, v₁⟩
      case none => simp [follow, h₁]
      case some =>
        rcases h₂ : t.filtered s.filter next with _ | kept
        case none => simp [follow, h₁, h₂]
        case some =>
          simp only [List.cons_append, follow, h₁, h₂, hi, Option.bind_eq_bind, Option.bind_some]
          rcases t.follow v₁ kept path with _ | w
          case none => rfl
          case some =>
            simp only [Option.bind_some, Option.pure_def]
            cases t.follow w.visits w.cursors path' <;> rfl

theorem walk_append (a : Alternative) (path path' : List Segment) :
    t.walk v { a with path := path ++ path' } =
      (t.walk v { a with path }).bind fun w =>
        (t.follow w.visits w.cursors path').map w.append := by
  simp only [walk, follow_append, Option.bind_eq_bind, Option.bind_assoc]

theorem map_node_found (w : Walk) :
    w.found.map Cursor.node = w.cursors.filter (· ≠ .aboveRoot) := by
  rw [Walk.found]
  induction w.cursors
  case nil          => rfl
  case cons c cs hi => cases c <;> simpa [List.filterMap_cons, Cursor.id?] using hi

theorem exists_mapM {α : Type} {f : Nat → Option α} (h : ∀ id ∈ ids, ∃ x, f id = some x) :
    ∃ xs, ids.mapM f = some xs ∧ List.Forall₂ (fun id x => f id = some x) ids xs := by
  induction ids
  case nil => exact ⟨[], rfl, .nil⟩
  case cons id ids hi =>
    have ⟨⟨x, hx⟩, h⟩ := List.forall_mem_cons.mp h
    have ⟨xs, hxs, hf⟩ := hi h
    exact ⟨x :: xs, by simp [hx, hxs], .cons hx hf⟩

theorem exists_report (hb : ∀ id ∈ ids, id < t.size) :
    ∃ records, t.report ids = some (.array records) ∧
      List.Forall₂ (fun id d => (t.get? id).map (·.document (t.pathOf id)) = some d)
        ids records := by
  have hr : ∀ id ∈ ids, ∃ d, (t.get? id).map (·.document (t.pathOf id)) = some d := by
    intro id hi
    have ⟨n, hn⟩ := exists_get?_of_lt_size <| hb id hi
    exact ⟨n.document (t.pathOf id), by rw [hn, Option.map_some]⟩
  have ⟨records, hr, hm⟩ := exists_mapM hr
  exact ⟨records, by simp only [report, hr]; rfl, hm⟩

theorem length_le_size (hn : ids.Nodup) (hb : ∀ id ∈ ids, id < t.size) : ids.length ≤ t.size := by
  have hs : ids ⊆ List.range t.size := fun id h => List.mem_range.mpr <| hb id h
  simpa using (hn.subperm hs).length_le

theorem WellFormed.lt_size_of_mem_eraseDups (hw : t.WellFormed) {as : List Alternative} :
    ∀ id ∈ (as.flatMap t.designated).eraseDups, id < t.size := by
  intro id h
  have ⟨_, _, h⟩ := List.mem_flatMap.mp <| List.mem_eraseDups.mp h
  exact hw.lt_size_of_mem_designatedBy (hw.lists le_rfl) id h

-- No evaluation looks for a node that the tree does not have, with whatever table of visits. At any
-- point of a path, it stands within the tree and goes on from there. What it finds are nodes of the
-- tree, each once in the end, so they can all be looked up.
theorem Reachable.walk_within (h : t.Reachable) :
    (∀ v a path path', a.path = path ++ path' →
      ∃ w w', t.walk v { a with path } = some w ∧ (∀ c ∈ w.cursors, c.Within t) ∧
        t.follow w.visits w.cursors path' = some w' ∧ t.walk v a = some (w.append w')) ∧
    (∀ v ids, (∀ id ∈ ids, id < t.size) → ∀ id ∈ (t.collect v ids).1, id < t.size) ∧
    (∀ v a, ∃ w, t.walk v a = some w ∧ w.found.map .node = w.cursors.filter (· ≠ .aboveRoot) ∧
      ∀ id ∈ w.found, id < t.size) ∧
    (∀ s, ∃ b, t.evaluate s = some b ∧ b.found.Nodup ∧ b.found.length ≤ t.size ∧
      ∀ id ∈ b.found, id < t.size) ∧
    (∀ text, ∃ b nodes records, t.query text = some b ∧ t.selectNodes (some text) = .ok nodes ∧
      List.Forall₂ (fun id n => t.get? id = some n) b.found nodes ∧
      t.report b.found = some (.array records) ∧
      List.Forall₂ (fun id d => (t.get? id).map (·.document (t.pathOf id)) = some d) b.found
        records) := by
  have hw := h.wellFormed
  refine ⟨?parts, fun _ _ => hw.collect_lt_size, ?walk, ?evaluate, ?query⟩
  case parts =>
    intro v a path path' hp
    have ⟨w, h₁, hc⟩ := hw.exists_walk v { a with path }
    have ⟨w', h₂, _⟩ := hw.exists_follow (v := w.visits) hc path'
    refine ⟨w, w', h₁, hc, h₂, ?_⟩
    have ha : a = { a with path := path ++ path' } := hp ▸ rfl
    rw [ha, walk_append, h₁, Option.bind_some, h₂, Option.map_some]
  case walk =>
    intro v a
    have ⟨w, hw, hc⟩ := hw.exists_walk v a
    refine ⟨w, hw, map_node_found w, fun id hi => ?_⟩
    have hm : .node id ∈ w.cursors.filter (· ≠ .aboveRoot) :=
      map_node_found w ▸ List.mem_map_of_mem hi
    exact hc (.node id) (List.mem_of_mem_filter hm)
  case evaluate =>
    intro s
    have ⟨b, hb, hf⟩ := hw.exists_evaluate s
    have hl : ∀ id ∈ b.found, id < t.size := hf ▸ hw.lt_size_of_mem_eraseDups
    have hn : b.found.Nodup := hf ▸ nodup_eraseDups _
    exact ⟨b, hb, hn, length_le_size hn hl, hl⟩
  case query =>
    intro text
    have ⟨b, hs, hq, hf⟩ := hw.exists_select text
    have hl : ∀ id ∈ b.found, id < t.size := hf ▸ hw.lt_size_of_mem_eraseDups
    have ⟨nodes, hn, hm⟩ := exists_mapM fun id hi => exists_get?_of_lt_size (hl id hi)
    have ⟨records, hr, hm'⟩ := exists_report hl
    refine ⟨b, nodes, records, hq, ?_, hm, hr, hm'⟩
    simp only [selectNodes, hs, Bind.bind, Except.bind, hn, Option.elim_some]

-- The path leads above the root and down to nodes that the table has no place for. The level above
-- the root is where the first alternative of the text ends, and it is not part of the result.
theorem walk_within_small :
    let n : Node := ⟨"a", none, none, none, .empty, [], none⟩
    let t := (ofRoot n).attach 0 n
    let path : List Segment := [⟨.parent, none⟩, ⟨.descendants, none⟩, ⟨.wildcard, none⟩]
    t.Reachable ∧
      (∃ w, t.walk (.ofSize 1) ⟨.root, ⟨.wildcard, none⟩, path⟩ = some w ∧
        ∀ id ∈ w.found, id < 2) ∧
      ∃ b nodes, t.query "/a/..|/a/*|/a/*/.." = some b ∧ b.found = [1, 0] ∧
        t.selectNodes (some "/a/..|/a/*|/a/*/..") = .ok nodes ∧ nodes.length = 2 ∧
        (t.report b.found).isSome := by
  intro n t path
  have h : t.Reachable := .attach (.ofRoot n) (by decide)
  have ⟨_, _, hw, _, hq⟩ := h.walk_within
  have ⟨w, hw, _, hb⟩ := hw (.ofSize 1) ⟨.root, ⟨.wildcard, none⟩, path⟩
  have ⟨b, nodes, records, hq, hn, hm, hr, _⟩ := hq "/a/..|/a/*|/a/*/.."
  have hf : (t.query "/a/..|/a/*|/a/*/..").map Answer.found = some [1, 0] := by decide +kernel
  have hf : b.found = [1, 0] := by simpa [hq] using hf
  refine ⟨h, ⟨w, hw, hb⟩, b, nodes, hq, hf, hn, ?length, by simp [hr]⟩
  case length => rw [←hm.length_eq, hf]; rfl

end Tree
end TreeQuery
