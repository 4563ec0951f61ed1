import TreeQuery.Proofs.Evaluation.DepthFirst

namespace TreeQuery

theorem eraseDups_filter (p : Nat → Bool) (ids : List Nat) :
    (ids.filter p).eraseDups = ids.eraseDups.filter p := by
  match ids with
  | []        => rfl
  | id :: ids =>
    have hi := eraseDups_filter p (ids.filter fun j => !j == id)
    by_cases hp : p id
    case pos =>
      have hc : (ids.filter p).filter (fun j => !j == id) =
          (ids.filter fun j => !j == id).filter p := by
        simp only [List.filter_filter, Bool.and_comm]
      rw [List.filter_cons_of_pos hp, List.eraseDups_cons, List.eraseDups_cons,
        List.filter_cons_of_pos hp, hc, hi]
    case neg =>
      have hc : (ids.filter fun j => !j == id).filter p = ids.filter p := by
        rw [List.filter_filter]
        apply List.filter_congr
        intro j _
        by_cases hj : j = id <;> simp [hj, hp]
      rw [List.filter_cons_of_neg hp, List.eraseDups_cons, List.filter_cons_of_neg hp, ←hi, hc]
termination_by ids.length
decreasing_by exact Nat.lt_succ_of_le <| List.length_filter_le ..

theorem nodup_eraseDups (ids : List Nat) : ids.eraseDups.Nodup := by
  induction ids
  case nil => simp
  case cons id ids hi =>
    rw [List.eraseDups_cons, eraseDups_filter]
    exact List.nodup_cons.mpr ⟨by simp, hi.filter _⟩

theorem eraseDups_map (f : Nat → Nat) (ids : List Nat)
    (hf : ∀ id ∈ ids, ∀ j ∈ ids, f id = f j → id = j) :
    (ids.map f).eraseDups = ids.eraseDups.map f := by
  match ids with
  | []        => rfl
  | id :: ids =>
    have hc : (ids.map f).filter (fun j => !j == f id) = (ids.filter fun j => !j == id).map f := by
      rw [List.filter_map]
      congr 1
      apply List.filter_congr
      intro j hj
      have he : f j = f id ↔ j = id := ⟨hf j (.tail _ hj) id (.head _), congrArg f⟩
      rw [Function.comp_apply, Bool.eq_iff_iff]
      simp [he]
    have hi := eraseDups_map f (ids.filter fun j => !j == id) fun i hi j hj =>
      hf i (.tail _ <| List.mem_of_mem_filter hi) j (.tail _ <| List.mem_of_mem_filter hj)
    rw [List.map_cons, List.eraseDups_cons, List.eraseDups_cons, List.map_cons, hc, hi]
termination_by ids.length
decreasing_by exact Nat.lt_succ_of_le <| List.length_filter_le ..

-- Of two lists in a row, the second adds what the first does not have.
theorem eraseDups_append_eq_filter {ids ids' : List Nat} :
    (ids ++ ids').eraseDups = ids.eraseDups ++ ids'.eraseDups.filter (· ∉ ids.eraseDups) := by
  have hr : ids'.removeAll ids = ids'.filter (· ∉ ids.eraseDups) := by
    simp [List.removeAll]
  rw [List.eraseDups_append, hr, eraseDups_filter]

namespace Tree

variable {t : Tree} {v : Visits} {size : Nat} {list : Listing}

-- The alternatives share a table of visits, but what one of them finds depends on no other.
theorem WellFormed.walks_eq (hw : t.WellFormed) (hl : t.Lists size list) (hv : v.Ready size)
    (as : List Alternative) :
    ∃ ws, t.walks v as = some ws ∧
      ws.map (fun (a, w) => (a, w.found)) = as.map fun a => (a, t.designatedBy list a) := by
  induction as generalizing v
  case nil => exact ⟨[], rfl, rfl⟩
  case cons a as hi =>
    have ⟨w, hw, hf, hv⟩ := hw.walk_eq hl hv a
    have ⟨ws, hws, hfs⟩ := hi hv
    exact ⟨(a, w) :: ws, by simp [walks, hw, hws], by simp [hf, hfs]⟩

theorem WellFormed.exists_walks (hw : t.WellFormed) (s : Selector) :
    ∃ ws, t.walks (.ofTree t) s.alternatives = some ws ∧
      ws.map (fun (a, w) => (a, w.found)) = s.alternatives.map fun a => (a, t.designated a) :=
  hw.walks_eq (hw.lists le_rfl) Visits.Ready.ofSize s.alternatives

theorem WellFormed.exists_evaluate (hw : t.WellFormed) (s : Selector) :
    ∃ answer, t.evaluate s = some answer ∧
      answer.found = (s.alternatives.flatMap t.designated).eraseDups := by
  have ⟨ws, hws, hf⟩ := hw.exists_walks s
  refine ⟨_, by simp only [evaluate, hws]; rfl, ?_⟩
  have hf := congrArg (List.flatMap Prod.snd) hf
  rw [List.flatMap_map, List.flatMap_map] at hf
  exact congrArg List.eraseDups hf

end Tree
end TreeQuery
