import Mathlib.Data.List.Chain
import TreeQuery.Proofs.Tree.Preorder
import TreeQuery.Tree.Loading

namespace TreeQuery

-- A node as a spec. What stands below it does not come from its links.
def Node.toSpec (n : Node) (children : List Spec) : Spec where
  name       := n.name
  kind       := n.kind
  variant    := n.variant
  version    := n.version
  attributes := n.attributes
  children   := children

namespace Spec

-- Some node of the spec, at whatever depth, has an empty name.
inductive HasNameless : Spec → Prop
  | here {s : Spec} : (s.name = "") → HasNameless s
  | deeper {s c : Spec} : c ∈ s.children → HasNameless c → HasNameless s

-- The number of nodes of a spec, and of several of them.
mutual

def count : Spec → Nat
  | ⟨_, _, _, _, _, children⟩ => countAll children + 1

def countAll : List Spec → Nat
  | []         => 0
  | s :: specs => s.count + countAll specs

end

theorem hasNameless_iff {s : Spec} :
    s.HasNameless ↔ s.name = "" ∨ ∃ c ∈ s.children, c.HasNameless := by
  constructor
  case mp =>
    intro h
    match h with
    | .here h      => exact .inl h
    | .deeper hc h => exact .inr ⟨_, hc, h⟩
  case mpr =>
    intro h
    match h with
    | .inl h           => exact .here h
    | .inr ⟨_, hc, h⟩  => exact .deeper hc h

theorem count_eq {s : Spec} : s.count = countAll s.children + 1 := by
  cases s
  rw [count]

theorem countAll_append {specs specs' : List Spec} :
    countAll (specs ++ specs') = countAll specs + countAll specs' := by
  induction specs
  case nil          => simp [countAll]
  case cons s _ hi  => rw [List.cons_append, countAll, countAll, hi, Nat.add_assoc]

theorem toNode_eq_error_iff {s : Spec} {e : LoadError} :
    s.toNode = .error e ↔ s.name = "" ∧ e = .emptyName := by
  unfold toNode
  split <;> rename_i h <;> rw [String.isEmpty_iff] at h <;> simp [h, eq_comm]

theorem hasNameless_iff_of_toNode_eq_ok {s : Spec} {n : Node} (h : s.toNode = .ok n) :
    s.HasNameless ↔ ∃ c ∈ s.children, c.HasNameless := by
  have hn : s.name ≠ "" := fun he => by simp [toNode, he] at h
  rw [hasNameless_iff, or_iff_right hn]

theorem toSpec_of_toNode_eq_ok {s : Spec} {n : Node} (h : s.toNode = .ok n) :
    n.toSpec s.children = s := by
  unfold toNode at h
  split at h
  case isTrue  => contradiction
  case isFalse => cases h; cases s; rfl

end Spec

namespace Tree

-- Specs that wait to be added below a node.
def waiting (pending : List (Nat × List Spec)) (id : Nat) : List Spec :=
  (pending.filter (·.1 = id)).flatMap Prod.snd

-- A node with everything below it, where further specs stand behind the children of a node. As in
-- `preorder`, links that no tree has are not followed.
def specWith (t : Tree) (further : Nat → List Spec) (id : Nat) : Option Spec :=
  (t.get? id).map fun n =>
    n.toSpec <|
      (n.children.filterMap fun c => if id < c ∧ c < t.size then t.specWith further c else none) ++
        further id
termination_by t.size - id

-- What is read back from a node.
def specAt (t : Tree) (id : Nat) : Option Spec :=
  t.specWith (fun _ => []) id

variable {t t' : Tree} {n : Node} {s : Spec} {specs : List Spec} {id parent : Nat}
variable {pending : List (Nat × List Spec)}

theorem WellFormed.specWith_eq (hw : t.WellFormed) {further : Nat → List Spec} :
    t.specWith further id = (t.get? id).map
      (·.toSpec <| (t.children id).filterMap (t.specWith further) ++ further id) := by
  rw [specWith]
  cases hn : t.get? id
  case none   => rfl
  case some n =>
    have hc : n.children = t.children id := by simp [children, hn]
    rw [Option.map_some, Option.map_some, hc]
    congr 3
    apply List.filterMap_congr
    intro c hm
    exact if_pos ⟨hw.lt_of_mem_children hm, hw.mem_children_lt_size hm⟩

theorem map_toSpec_get?_attach (h : id < t.size) {specs : List Spec} :
    ((t.attach parent n).get? id).map (·.toSpec specs) = (t.get? id).map (·.toSpec specs) := by
  rw [get?_attach_of_lt h, Option.map_map]
  congr 1
  funext m
  rw [Function.comp_apply]
  split <;> rfl

-- If a spec stands behind the children of a node, adding its node there and leaving its children to
-- stand behind it changes nothing in what is read back.
theorem WellFormed.specWith_attach (hw : t.WellFormed) (hp : parent < t.size)
    {further further' : Nat → List Spec} (hn : s.toNode = .ok n)
    (hparent : further parent = s :: further' parent) (hadded : further' t.size = s.children)
    (hother : ∀ id < t.size, id ≠ parent → further' id = further id) (hi : id < t.size) :
    (t.attach parent n).specWith further' id = t.specWith further id := by
  have hw' := hw.attach (n := n) hp
  have hs : (t.attach parent n).specWith further' t.size = some s := by
    have hc : (t.attach parent n).children t.size = [] := by
      rw [children_attach hp, if_neg hp.ne', children_eq_nil_of_size_le le_rfl]
    have hs : n.toSpec s.children = s := Spec.toSpec_of_toNode_eq_ok hn
    rw [hw'.specWith_eq, get?_attach_size, hc, hadded]
    exact congrArg some hs
  induction id using preorder.induct t
  case case1 id hr =>
    have hc : (t.children id).filterMap ((t.attach parent n).specWith further') =
        (t.children id).filterMap (t.specWith further) := by
      apply List.filterMap_congr
      intro c hc
      have hb := hw.mem_children_lt_size hc
      exact hr c ⟨hw.lt_of_mem_children hc, hb⟩ hb
    rw [hw.specWith_eq, hw'.specWith_eq, map_toSpec_get?_attach hi, children_attach hp]
    by_cases he : id = parent
    case pos => rw [if_pos he, List.filterMap_append, hc, he, hparent]; simp [hs]
    case neg => rw [if_neg he, hc, hother id hi he]

theorem waiting_cons {p : Nat} :
    waiting ((p, specs) :: pending) id = (if p = id then specs else []) ++ waiting pending id := by
  by_cases h : p = id <;> simp [waiting, h]

theorem waiting_eq_nil (h : ∀ p ∈ pending, p.1 < id) : waiting pending id = [] := by
  have hf : pending.filter (·.1 = id) = [] :=
    List.filter_eq_nil_iff.mpr fun p hp => by simpa using (h p hp).ne
  rw [waiting, hf, List.flatMap_nil]

-- What holds while specs are added. The node of the first pending list gets the next child, and the
-- nodes of the other lists have no children yet. So nothing comes between the children of a node.
structure Growing (t : Tree) (pending : List (Nat × List Spec)) : Prop where
  reachable   : t.Reachable
  lt_size     : ∀ p ∈ pending, p.1 < t.size
  nodup       : (pending.map Prod.fst).Nodup
  consecutive : ∀ id, (t.children id).IsChain fun c d => d = c + 1
  last        : ∀ p ∈ pending.head?, ∀ c ∈ (t.children p.1).getLast?, c + 1 = t.size
  childless   : ∀ p ∈ pending.tail, t.children p.1 = []

namespace Growing

theorem ofRoot : Growing (Tree.ofRoot n) [(0, specs)] where
  reachable      := .ofRoot n
  lt_size        := by simp [size_ofRoot]
  nodup          := by simp
  consecutive id := by simp [children_ofRoot]
  last           := by simp [children_ofRoot]
  childless      := by simp

theorem pop (h : Growing t ((parent, []) :: pending)) : Growing t pending where
  reachable   := h.reachable
  lt_size     := fun p hp => h.lt_size p (.tail _ hp)
  nodup       := (List.nodup_cons.mp h.nodup).right
  consecutive := h.consecutive
  last        := fun p hp => by simp [h.childless p <| List.mem_of_mem_head? hp]
  childless   := fun p hp => h.childless p <| List.mem_of_mem_tail hp

theorem attach (h : Growing t ((parent, s :: specs) :: pending)) :
    Growing (t.attach parent n) ((parent, specs) :: (t.size, s.children) :: pending) := by
  have ⟨hp, hb⟩ := List.forall_mem_cons.mp h.lt_size
  have ⟨hm, hn⟩ := List.nodup_cons.mp h.nodup
  have hne : ∀ p ∈ pending, p.1 ≠ parent :=
    fun p hq he => hm <| List.mem_map.mpr ⟨p, hq, he⟩
  have hs : t.size ∉ pending.map Prod.fst := by
    intro hs
    have ⟨p, hq, he⟩ := List.mem_map.mp hs
    exact (hb p hq).ne he
  constructor
  case reachable   => exact h.reachable.attach hp
  case lt_size     =>
    rw [size_attach]
    simp only [List.forall_mem_cons]
    exact ⟨hp.trans <| Nat.lt_succ_self _, Nat.lt_succ_self _,
      fun p hq => (hb p hq).trans <| Nat.lt_succ_self _⟩
  case nodup       =>
    simp only [List.map_cons, List.nodup_cons, List.mem_cons, not_or]
    exact ⟨⟨hp.ne, hm⟩, hs, hn⟩
  case consecutive =>
    intro id
    rw [children_attach hp]
    split
    case isFalse   => exact h.consecutive id
    case isTrue he =>
      refine (h.consecutive id).append (.singleton _) ?_
      simpa [he, eq_comm] using h.last
  case last        => simp [children_attach hp, size_attach]
  case childless   =>
    simp only [List.tail_cons, List.forall_mem_cons, children_attach hp]
    refine ⟨?_, fun p hq => ?_⟩
    · rw [if_neg hp.ne', children_eq_nil_of_size_le le_rfl]
    · rw [if_neg (hne p hq), h.childless p hq]

-- What is read back from the grown tree is what was there before with all pending specs added.
theorem of_grow_eq_ok (h : Growing t pending) (hg : t.grow pending = .ok t') :
    Growing t' [] ∧ t'.size = t.size + Spec.countAll (pending.flatMap Prod.snd) ∧
      ∀ id < t.size, t'.specAt id = t.specWith (waiting pending) id := by
  fun_induction t.grow pending
  case case1 => cases hg; exact ⟨h, by simp [Spec.countAll], fun _ _ => rfl⟩
  case case2 t p pending hi =>
    obtain ⟨h', hs, hr⟩ := hi h.pop hg
    have hw : waiting ((p, []) :: pending) = waiting pending := by
      funext id
      simp [waiting_cons]
    exact ⟨h', by simp [hs], hw ▸ hr⟩
  case case3 => contradiction
  case case4 t parent s specs pending n hn hi =>
    obtain ⟨hp, hb⟩ := List.forall_mem_cons.mp h.lt_size
    obtain ⟨h', hs, hr⟩ := hi h.attach hg
    refine ⟨h', ?size, fun id hid => ?spec⟩
    case size =>
      rw [hs, size_attach]
      simp only [List.flatMap_cons, Spec.countAll_append, Spec.countAll, Spec.count_eq]
      omega
    case spec =>
      rw [hr id <| by rw [size_attach]; omega]
      refine h.reachable.wellFormed.specWith_attach hp hn ?parent ?added ?other hid
      case parent => simp [waiting_cons, hp.ne']
      case added  => simp [waiting_cons, hp.ne, waiting_eq_nil hb]
      case other  => intro id hi he; simp [waiting_cons, Ne.symm he, hi.ne']

end Growing

-- Wherever in the pending specs it stands, a node without a name makes the whole tree fail.
theorem grow_eq_error_iff {e : LoadError} :
    t.grow pending = .error e ↔ (∃ p ∈ pending, ∃ s ∈ p.2, s.HasNameless) ∧ e = .emptyName := by
  fun_induction t.grow pending
  case case1 => simp
  case case2 hi => simp [hi]
  case case3 s _ _ e' hn =>
    have ⟨hn, he⟩ := Spec.toNode_eq_error_iff.mp hn
    have hs : s.HasNameless := .here hn
    simp [he, hs, eq_comm]
  case case4 hn hi =>
    simp only [hi, List.mem_cons, exists_eq_or_imp, Spec.hasNameless_iff_of_toNode_eq_ok hn,
      or_assoc, or_left_comm]

theorem ofSpec_eq_error_iff {e : LoadError} :
    ofSpec s = .error e ↔ s.HasNameless ∧ e = .emptyName := by
  cases hn : s.toNode
  case error e' =>
    have ⟨hn', he⟩ := Spec.toNode_eq_error_iff.mp hn
    have hs : s.HasNameless := .here hn'
    have ho : ofSpec s = .error e' := by simp only [ofSpec, hn]; rfl
    simp [ho, he, hs, eq_comm]
  case ok n =>
    have ho : ofSpec s = (ofRoot n).grow [(0, s.children)] := by simp only [ofSpec, hn]; rfl
    rw [ho, grow_eq_error_iff, Spec.hasNameless_iff_of_toNode_eq_ok hn]
    simp

theorem of_ofSpec_eq_ok (h : ofSpec s = .ok t) :
    Growing t [] ∧ t.size = s.count ∧ t.specAt t.root = some s := by
  cases hn : s.toNode
  case error => simp only [ofSpec, hn] at h; contradiction
  case ok n  =>
    have ho : ofSpec s = (ofRoot n).grow [(0, s.children)] := by simp only [ofSpec, hn]; rfl
    obtain ⟨hg, hs, hr⟩ := Growing.ofRoot.of_grow_eq_ok (ho ▸ h)
    refine ⟨hg, ?size, ?spec⟩
    case size => rw [hs, Spec.count_eq, size_ofRoot]; simp [Nat.add_comm]
    case spec =>
      have he : n.toSpec s.children = s := Spec.toSpec_of_toNode_eq_ok hn
      have hw : waiting [(0, s.children)] 0 = s.children := by simp [waiting]
      refine (hr 0 Nat.one_pos).trans ?_
      rw [WellFormed.ofRoot.specWith_eq, children_ofRoot, hw]
      exact congrArg some he

-- Loading fails if and only if a name is empty, at whatever depth. Otherwise each node of a spec is
-- in the tree once, and the spec can be read back from the root.
theorem ofSpec_lossless (s : Spec) :
    (∀ e, ofSpec s = .error e ↔ s.HasNameless ∧ e = .emptyName) ∧
    (¬s.HasNameless → ∃ t, ofSpec s = .ok t ∧ t.Reachable ∧ t.WellFormed ∧ t.size = s.count ∧
      t.specAt t.root = some s ∧ ∀ id, (t.children id).IsChain fun c d => d = c + 1) := by
  refine ⟨fun _ => ofSpec_eq_error_iff, fun hs => ?_⟩
  cases h : ofSpec s
  case error => exact absurd (ofSpec_eq_error_iff.mp h).left hs
  case ok t  =>
    have ⟨hg, hc, hr⟩ := of_ofSpec_eq_ok h
    exact ⟨t, rfl, hg.reachable, hg.reachable.wellFormed, hc, hr, hg.consecutive⟩

-- An empty name two levels down makes the tree fail. With a name there, everything is read back.
theorem ofSpec_lossless_nested :
    let bottom (name : String) : Spec := ⟨name, none, some "x", none, .empty, []⟩
    let s (name : String) : Spec :=
      ⟨"a", none, none, none, ⟨[("k", "1"), ("j", "2")], by decide⟩,
        [⟨"b", none, none, none, .empty, [bottom "c", bottom "d"]⟩,
          ⟨"e", none, none, none, .empty, [bottom name]⟩]⟩
    ofSpec (s "") = .error .emptyName ∧
      ∃ t, ofSpec (s "f") = .ok t ∧ t.WellFormed ∧ t.size = 6 ∧ t.specAt t.root = some (s "f") ∧
        (t.children t.root).IsChain fun c d => d = c + 1 := by
  intro bottom s
  have hb (name : String) : (bottom name).HasNameless ↔ name = "" := by
    rw [Spec.hasNameless_iff]
    simp [bottom]
  have hs (name : String) : (s name).HasNameless ↔ name = "" := by
    simp [s, Spec.hasNameless_iff (s := ⟨_, _, _, _, _, _⟩), hb]
  have ⟨t, ht, _, hw, hc, hr, hi⟩ := (ofSpec_lossless (s "f")).right <| by simp [hs]
  have he : ofSpec (s "") = .error .emptyName :=
    (ofSpec_lossless (s "")).left _ |>.mpr <| by simp [hs]
  exact ⟨he, t, ht, hw, hc, hr, hi t.root⟩

end Tree
end TreeQuery
