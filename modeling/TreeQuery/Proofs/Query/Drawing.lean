import TreeQuery.Proofs.Query.Path
import TreeQuery.Tree.Drawing

namespace TreeQuery

-- The alternative that selects all nodes.
def Alternative.everything : Alternative :=
  ⟨.anywhere, ⟨.wildcard, none⟩, []⟩

theorem Alternative.accepted_everything : accepted "**/*" = [everything] := by
  have hw : everything.WellFormed := ⟨⟨trivial, by simp [everything]⟩, by simp [everything]⟩
  have ht : everything.text = "**/*" := by decide +kernel
  simp only [accepted, ←ht, hw.parse_text]

namespace Tree

-- A node is the last one among the children of its parent.
def isLastChild (t : Tree) (id : Nat) : Bool :=
  (t.parent? id).any fun p => (t.children p).getLast? = some id

def branch (t : Tree) (id : Nat) : String :=
  if t.isLastChild id then "└── " else "├── "

-- What a node leaves in the rows of the nodes below it.
def line (t : Tree) (id : Nat) : String :=
  if t.isLastChild id then "    " else "│   "

-- What stands in front of a node: the lines of the nodes between the root and the node, from the
-- top down, and the branch to the node itself.
def lead (t : Tree) (id : Nat) : String :=
  if id = t.root then ""
  else String.join ((t.lineage id).tail.dropLast.map t.line) ++ t.branch id

def row (t : Tree) (id : Nat) : String :=
  t.lead id ++ (t.get? id).elim "" Node.describe

-- What stands in front of the branches to the children of a node.
def indentation (t : Tree) (id : Nat) : String :=
  String.join ((t.lineage id).tail.map t.line)

-- The recursion that draws the given children of a node. It goes down to the children of each child
-- and is not kept from going on forever.
inductive Draws (t : Tree) : String → List Nat → List String → Prop
  | nil {indent : String} : Draws t indent [] []
  | cons {indent : String} {child : Nat} {rest : List Nat} {below after : List String} :
    Draws t (indent ++ if rest.isEmpty then "    " else "│   ") (t.children child) below →
    Draws t indent rest after →
    Draws t indent (child :: rest)
      ((indent ++ (if rest.isEmpty then "└── " else "├── ") ++
        (t.get? child).elim "" Node.describe) :: below ++ after)

variable {t : Tree} {id child : Nat} {ids rest : List Nat} {indent : String} {rows : List String}

theorem lineage_ne_nil : t.lineage id ≠ [] := by
  rw [lineage]
  split
  case h_1 => simp
  case h_2 => split <;> simp

theorem rowsBelow_cons (hg : id < child ∧ child < t.size) :
    t.rowsBelow indent id (child :: rest) =
      (indent ++ (if rest.isEmpty then "└── " else "├── ") ++
        (t.get? child).elim "" Node.describe) ::
        t.rowsBelow (indent ++ if rest.isEmpty then "    " else "│   ") child (t.children child) ++
        t.rowsBelow indent id rest := by
  rw [rowsBelow]
  simp only [if_pos hg]
  cases rest <;> rfl

theorem designated_everything :
    t.designated .everything = t.preorder t.root := by
  simp [designated, designatedBy, Alternative.everything, starts, reach,
    Cursor.filter_passes_none, List.filterMap_map, Function.comp_def, Cursor.id?]

namespace WellFormed

theorem exists_query_everything (hw : t.WellFormed) :
    ∃ answer, t.query "**/*" = some answer ∧ answer.found = t.preorder t.root := by
  have ⟨answer, ha, hf⟩ := hw.exists_query "**/*"
  refine ⟨answer, ha, hf.trans ?_⟩
  rw [Alternative.accepted_everything, List.flatMap_singleton, designated_everything,
    eraseDups_eq_self hw.nodup_preorder]

-- Links lead to larger ids of the tree, so the bounds on the recursion are never met.
theorem draws_rowsBelow (hw : t.WellFormed) (hs : ∀ c ∈ ids, c ∈ t.children id) :
    t.Draws indent ids (t.rowsBelow indent id ids) := by
  induction indent, id, ids using rowsBelow.induct t
  case case1 => rw [rowsBelow]; exact .nil
  case case2 indent id child rest _ line he hbelow hafter =>
    have ⟨hc, hs⟩ := List.forall_mem_cons.mp hs
    have hg := And.intro (hw.lt_of_mem_children hc) (hw.mem_children_lt_size hc)
    have hl : line = if rest.isEmpty then "    " else "│   " := by
      cases rest <;> (cases he; rfl)
    rw [rowsBelow_cons hg]
    exact .cons (hl ▸ hbelow hg fun _ hm => hm) (hafter hs)

theorem isLastChild_eq (hw : t.WellFormed) (hs : child :: rest <:+ t.children id) :
    t.isLastChild child = rest.isEmpty := by
  have hp : t.parent? child = some id := hw.mem_children_iff.mp <| hs.subset (.head _)
  have hlt : ∀ c ∈ rest, child < c :=
    (List.pairwise_cons.mp <| (hw.children_sorted id).sublist hs.sublist).left
  have ⟨pre, he⟩ := hs
  rw [isLastChild, hp, Option.any_some, ←he, List.getLast?_append]
  cases rest
  case nil       => simp
  case cons c cs =>
    have hl := List.getLast_mem (List.cons_ne_nil c cs)
    rw [List.getLast?_cons_cons, List.getLast?_eq_some_getLast (List.cons_ne_nil c cs)]
    simpa using (hlt _ hl).ne'

theorem indentation_root (hw : t.WellFormed) : t.indentation t.root = "" := by
  rw [indentation, hw.lineage_root]
  rfl

theorem tail_lineage (hw : t.WellFormed) (hc : child ∈ t.children id) :
    (t.lineage child).tail = (t.lineage id).tail ++ [child] := by
  rw [hw.lineage_of_up <| hw.mem_children_iff.mp hc, List.tail_append_of_ne_nil lineage_ne_nil]

theorem indentation_child (hw : t.WellFormed) (hc : child ∈ t.children id) :
    t.indentation child = t.indentation id ++ t.line child := by
  simp [indentation, hw.tail_lineage hc]

theorem lead_child (hw : t.WellFormed) (hc : child ∈ t.children id) :
    t.lead child = t.indentation id ++ t.branch child := by
  have hr : child ≠ t.root := (Nat.zero_lt_of_lt <| hw.lt_of_mem_children hc).ne'
  rw [lead, if_neg hr, hw.tail_lineage hc, List.dropLast_concat, indentation]

theorem eq_map_row_of_draws (hw : t.WellFormed) (h : t.Draws indent ids rows)
    (hs : ids <:+ t.children id) (hi : indent = t.indentation id) :
    rows = (ids.flatMap t.preorder).map t.row := by
  induction h generalizing id
  case nil => rfl
  case cons child rest _ _ _ _ hbelow hafter =>
    have hc : child ∈ t.children id := hs.subset (.head _)
    have hl : rest.isEmpty = t.isLastChild child := (hw.isLastChild_eq hs).symm
    have hbelow := hbelow (List.suffix_refl _) <| by
      rw [hi, hl, hw.indentation_child hc]
      rfl
    have hafter := hafter ((List.suffix_cons ..).trans hs) hi
    rw [List.flatMap_cons, hw.preorder_eq, List.cons_append, List.cons_append, List.map_cons,
      List.map_append, ←hbelow, ←hafter, row, hw.lead_child hc, hi, hl]
    rfl

theorem draws_children (hw : t.WellFormed) :
    ∃ rows, t.Draws "" (t.children t.root) rows ∧
      t.rows = (t.get? t.root).elim "" Node.describe :: rows :=
  ⟨_, hw.draws_rowsBelow fun _ hc => hc, rfl⟩

theorem rows_eq_map_row (hw : t.WellFormed) : t.rows = (t.preorder t.root).map t.row := by
  have ⟨_, hd, hr⟩ := hw.draws_children
  have hm := hw.eq_map_row_of_draws hd (List.suffix_refl _) hw.indentation_root.symm
  have hl : t.row t.root = (t.get? t.root).elim "" Node.describe := String.empty_append
  rw [hr, hm, hw.preorder_eq, List.map_cons, hl]

end WellFormed

-- The drawing has a row for each node that is selected by the selector of all nodes, in this order.
-- What stands in front of a node can be read off its ancestors. Nothing but the links keeps the
-- recursion from going on forever.
theorem Reachable.drawing_eq_join (h : t.Reachable) :
    (∃ answer, t.query "**/*" = some answer ∧
      t.drawing = String.join (answer.found.map fun id => t.row id ++ "\n") ∧
      answer.found.Nodup ∧ ∀ id, id ∈ answer.found ↔ id < t.size) ∧
    ∃ rows, t.Draws "" (t.children t.root) rows ∧
      t.rows = (t.get? t.root).elim "" Node.describe :: rows := by
  have hw := h.wellFormed
  have ⟨answer, ha, hf⟩ := hw.exists_query_everything
  refine ⟨⟨answer, ha, ?drawing, hf ▸ hw.nodup_preorder, fun id => ?mem⟩, hw.draws_children⟩
  case drawing => simp only [drawing, hw.rows_eq_map_row, hf, List.map_map, Function.comp_def]
  case mem     => rw [hf, hw.mem_preorder_root_iff]

-- A node with no further siblings below a node with one, and one below a node without.
theorem drawing_eq_join_nested :
    let node (name : String) : Node := ⟨name, none, none, none, .empty, [], none⟩
    let t := (ofRoot <| node "a").afterCalls
      [(0, node "b"), (0, node "c"), (2, node "d"), (1, node "e"), (4, node "f")]
    t.Reachable ∧
      (∃ answer, t.query "**/*" = some answer ∧ answer.found = [0, 1, 4, 5, 2, 3] ∧
        t.drawing = String.join (answer.found.map fun id => t.row id ++ "\n")) ∧
      t.drawing = "a\n├── b\n│   └── e\n│       └── f\n└── c\n    └── d\n" := by
  intro node t
  have h : t.Reachable := (Reachable.ofRoot _).afterCalls
  have hp : t.preorder t.root = [0, 1, 4, 5, 2, 3] := by decide +kernel
  obtain ⟨⟨answer, ha, hd, _⟩, _⟩ := h.drawing_eq_join
  obtain ⟨_, ha', hf⟩ := h.wellFormed.exists_query_everything
  cases ha.symm.trans ha'
  rw [hp] at hf
  refine ⟨h, ⟨answer, ha, hf, hd⟩, ?_⟩
  rw [hd, hf]
  decide +kernel

end Tree
end TreeQuery
