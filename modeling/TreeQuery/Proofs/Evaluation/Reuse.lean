import TreeQuery.Proofs.Evaluation.DepthFirst

namespace TreeQuery

-- The table that is left after evaluations one after the other, each with the table that the one
-- before it leaves, on whatever trees.
def Visits.afterWalks (v : Visits) (calls : List (Tree × Alternative)) : Option Visits :=
  calls.foldlM (fun v (t, a) => (t.walk v a).map Walk.visits) v

theorem Visits.Ready.afterWalks {v : Visits} {size : Nat} {calls : List (Tree × Alternative)}
    (hv : v.Ready size) (h : ∀ c ∈ calls, c.1.Reachable) :
    ∃ v', v.afterWalks calls = some v' ∧ v'.Ready size := by
  induction calls generalizing v
  case nil => exact ⟨v, rfl, hv⟩
  case cons c calls hi =>
    have ⟨hc, h⟩ := List.forall_mem_cons.mp h
    have hw := hc.wellFormed
    have ⟨w, hw, _, hv⟩ := hw.walk_eq hw.lists_filter hv c.2
    have ⟨v', ha, hv'⟩ := hi hv h
    exact ⟨v', by simpa [Visits.afterWalks, hw] using ha, hv'⟩

namespace Tree

variable {t u : Tree} {calls : List (Tree × Alternative)}

-- A table that was made for the tree `u` serves for all evaluations to come, on any tree. What it
-- lists depends on no earlier use. If `t` has more nodes than `u`, the descendants of a node are
-- listed without the ids that the table does not have, and all other steps are as ever.
theorem Reachable.walk_afterWalks (ht : t.Reachable) (h : ∀ c ∈ calls, c.1.Reachable)
    (a : Alternative) :
    ∃ v w w' w₀, (Visits.ofTree u).afterWalks calls = some v ∧
      t.walk v a = some w ∧ t.walk (.ofTree u) a = some w' ∧ t.walk (.ofTree t) a = some w₀ ∧
      w.found = w'.found ∧
      (t.size ≤ u.size → w.found = w₀.found) ∧
      w₀.found = t.designatedBy (fun ids => ids.flatMap t.preorder) a ∧
      w.found = t.designatedBy (fun ids => (ids.flatMap t.preorder).filter (· < u.size)) a := by
  have hw := ht.wellFormed
  have hl : t.Lists u.size _ := hw.lists_filter
  have hz : (Visits.ofTree u).Ready u.size := .ofSize
  have ⟨v, hv, hr⟩ := hz.afterWalks h
  have ⟨w, hwalk, hf, _⟩    := hw.walk_eq hl hr a
  have ⟨w', hwalk', hf', _⟩ := hw.walk_eq hl hz a
  have ⟨w₀, hwalk₀, hf₀, _⟩ := hw.walk_eq (hw.lists le_rfl) Visits.Ready.ofSize a
  refine ⟨v, w, w', w₀, hv, hwalk, hwalk', hwalk₀, hf.trans hf'.symm, fun hs => ?_, hf₀, hf⟩
  have ⟨_, hwalk'', hf'', _⟩ := hw.walk_eq (hw.lists hs) hr a
  cases hwalk.symm.trans hwalk''
  exact hf''.trans hf₀.symm

-- The table is made for three nodes and was used on the larger tree before. The node with the id 3
-- is left out below the root, but it is found as a child of its parent.
theorem walk_afterWalks_small :
    let n : Node := ⟨"a", none, none, none, .empty, [], none⟩
    let u := ((ofRoot n).attach 0 n).attach 0 n
    let t := u.attach 1 n
    let a : Alternative := ⟨.anywhere, ⟨.wildcard, none⟩, []⟩
    let b : Alternative := ⟨.anywhere, ⟨.wildcard, none⟩, [⟨.wildcard, none⟩]⟩
    ∃ v w w', (Visits.ofTree u).afterWalks [(t, b), (u, a)] = some v ∧
      t.walk v a = some w ∧ w.found = [0, 1, 2] ∧
      t.walk v b = some w' ∧ w'.found = [1, 2, 3] := by
  intro n u t a b
  have hu : u.Reachable := .attach (.attach (.ofRoot n) (by decide)) (by decide)
  have ht : t.Reachable := .attach hu (by decide)
  have hc : ∀ c ∈ [(t, b), (u, a)], c.1.Reachable := by simp [ht, hu]
  have ⟨v, w, _, _, hv, hw, _, _, _, _, _, hf⟩      := ht.walk_afterWalks (u := u) hc a
  have ⟨v', w', _, _, hv', hw', _, _, _, _, _, hf'⟩ := ht.walk_afterWalks (u := u) hc b
  cases hv.symm.trans hv'
  have h₀ : t.children 0 = [1, 2] := rfl
  have h₁ : t.children 1 = [3] := rfl
  have h₂ : t.children 2 = [] := rfl
  have h₃ : t.children 3 = [] := rfl
  have hs : u.size = 3 := rfl
  have hp : t.preorder 0 = [0, 1, 3, 2] := by
    simp [ht.wellFormed.preorder_eq, h₀, h₁, h₂, h₃]
  refine ⟨v, w, w', hv, hw, hf.trans ?_, hw', hf'.trans ?_⟩ <;>
    simp [designatedBy, starts, reach, a, b, Cursor.next, Cursor.passes, Cursor.children,
      Cursor.id?, root, hp, hs, h₀, h₁, h₂]

end Tree
end TreeQuery
