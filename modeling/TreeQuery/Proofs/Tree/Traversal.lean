import TreeQuery.Proofs.Tree.Preorder
import TreeQuery.Tree.Traversal

namespace TreeQuery

namespace Visits

-- A table with an entry for each of the first `size` ids, none of them from a round to come.
structure Ready (v : Visits) (size : Nat) : Prop where
  size_eq  : v.stamps.size = size
  le_round : ∀ s ∈ v.stamps, s ≤ v.round

variable {v : Visits} {id j size : Nat}

theorem isOpen_mark_of_ne (h : id ≠ j) : (v.mark j).isOpen id = v.isOpen id := by
  simp only [isOpen, mark, Array.getElem?_setIfInBounds_ne h.symm]
  rfl

theorem lt_size_of_isOpen (h : v.isOpen id) : id < v.stamps.size :=
  (isOpen_iff.mp h).fst

namespace Ready

theorem ofSize : (Visits.ofSize size).Ready size where
  size_eq  := Array.size_replicate
  le_round := by simp [Visits.ofSize]

theorem lt_round_newRound (hv : v.Ready size) : ∀ s ∈ v.newRound.stamps, s < v.newRound.round := by
  unfold Visits.newRound
  split
  case isTrue     =>
    intro s hs
    have ⟨_, _, hs⟩ := Array.mem_map.mp hs
    exact hs ▸ UInt32.zero_lt_one
  case isFalse hr =>
    have hn : v.round ≠ -1 := fun he => hr <| by rw [he]; rfl
    exact fun s hs => UInt32.lt_of_le_of_lt (hv.le_round s hs) (UInt32.lt_add_one hn)

theorem newRound (hv : v.Ready size) : v.newRound.Ready size where
  size_eq       := by
    unfold Visits.newRound
    split
    case isTrue  => exact Array.size_map.trans hv.size_eq
    case isFalse => exact hv.size_eq
  le_round s hs := UInt32.le_of_lt <| hv.lt_round_newRound s hs

theorem mark (hv : v.Ready size) : (v.mark id).Ready size where
  size_eq       := by simp [Visits.mark, hv.size_eq]
  le_round s hs := by
    cases Array.mem_or_eq_of_mem_setIfInBounds hs
    case inl h => exact hv.le_round s h
    case inr h => exact h ▸ UInt32.le_refl _

theorem isOpen_newRound (hv : v.Ready size) (h : id < size) : v.newRound.isOpen id := by
  have hb : id < v.newRound.stamps.size := hv.newRound.size_eq ▸ h
  exact isOpen_iff.mpr ⟨hb, UInt32.ne_of_lt <| hv.lt_round_newRound _ <| Array.getElem_mem hb⟩

end Ready
end Visits

namespace Tree

variable {t : Tree} {v : Visits} {size : Nat}

theorem ready_collect (hv : v.Ready size) (stack : List Nat) :
    (t.collect v stack).2.Ready size := by
  induction v, stack using collect.induct t
  case case1 => simpa [collect]
  case case2 ho _ _ hc hi => simpa [collect, ho, hc] using hi hv.mark
  case case3 ho hi => simpa [collect, ho] using hi hv

-- A traversal with a table for the first `size` ids lists the nodes of these ids in pre-order. The
-- other nodes are passed over, and with them what is below them, which has even larger ids.
theorem WellFormed.collect_eq (hw : t.WellFormed) (hs : v.stamps.size = size) {stack : List Nat}
    (hn : (stack.flatMap t.preorder).Nodup)
    (ho : ∀ id ∈ stack.flatMap t.preorder, id < size → v.isOpen id) :
    (t.collect v stack).1 = (stack.flatMap t.preorder).filter (· < size) := by
  induction v, stack using collect.induct t
  case case1 => simp [collect]
  case case2 v id stack h ids _ hc hi =>
    have he : (id :: stack).flatMap t.preorder =
        id :: (t.children id ++ stack).flatMap t.preorder := by
      rw [List.flatMap_cons, hw.preorder_eq, List.cons_append, List.flatMap_append]
    rw [he] at hn ho ⊢
    have ⟨hm, hn⟩ := List.nodup_cons.mp hn
    have hs' : (v.mark id).stamps.size = size := by simp [Visits.mark, hs]
    have hi := hi hs' hn fun j hj hb =>
      (Visits.isOpen_mark_of_ne (ne_of_mem_of_not_mem hj hm)).trans <| ho j (.tail _ hj) hb
    have hb : id < size := hs ▸ Visits.lt_size_of_isOpen h
    rw [List.filter_cons_of_pos (by simpa using hb), ←hi]
    simp [collect, h]
  case case3 v id stack h hi =>
    rw [List.flatMap_cons, List.nodup_append'] at hn
    simp only [List.flatMap_cons, List.mem_append] at ho
    have hb : size ≤ id := by
      by_contra hc
      exact h <| ho id (.inl <| hw.preorder_eq ▸ .head _) (not_le.mp hc)
    have hf : (t.preorder id).filter (· < size) = [] := by
      simpa using fun j hj => hb.trans <| hw.le_of_mem_preorder hj
    rw [List.flatMap_cons, List.filter_append, hf, List.nil_append,
      ←hi hs hn.right.left fun j hj => ho j (.inr hj)]
    simp [collect, h]

end Tree
end TreeQuery
