import TreeQuery.Proofs.Command.Check
import TreeQuery.Proofs.Spec.Nesting
import TreeQuery.Proofs.Tree.Reordering

namespace TreeQuery

open Json (Document)

namespace Json.Value

inductive MemberReordered (reordered : Value → Value → Prop) :
    String × Value → String × Value → Prop
  | mk {key : String} {v v' : Value} :
    reordered v v' → MemberReordered reordered (key, v) (key, v')

-- Equal but for the order in which the members of objects stand. In the document of a tree, these
-- are the fields of nodes and the entries of their attributes.
inductive Reordered : Value → Value → Prop
  | refl {v : Value} : Reordered v v
  | array {vs vs' : List Value} :
    List.Forall₂ Reordered vs vs' → Reordered (.array vs) (.array vs')
  | object {ms ms' ms'' : List (String × Value)} :
    List.Forall₂ (MemberReordered Reordered) ms ms' → ms'.Perm ms'' →
    Reordered (.object ms) (.object ms'')

end Json.Value

theorem Attributes.document_eq_of_perm {as bs : Attributes} (h : as.entries.Perm bs.entries) :
    as.document = bs.document := by
  refine Document.record_eq_of_perm (h.map _) ?_
  rw [List.map_map]
  exact as.nodup_keys

theorem Node.Reordered.document_eq {m n : Node} (h : m.Reordered n) (path : String) :
    m.document path = n.document path := by
  simp only [Node.document, h.name, h.kind, h.variant, h.version,
    Attributes.document_eq_of_perm h.attributes]

namespace Tree.Reordered

variable {t u : Tree}

theorem report_eq (h : t.Reordered u) (ids : List Nat) : u.report ids = t.report ids := by
  have hd (id : Nat) : (u.get? id).map (·.document (u.pathOf id)) =
      (t.get? id).map (·.document (t.pathOf id)) := by
    cases hm : t.get? id
    case none   =>
      have hs : u.size ≤ id := h.size ▸ get?_eq_none_iff.mp hm
      rw [get?_eq_none_iff.mpr hs]
      rfl
    case some m =>
      have ⟨n, hn, hr⟩ := h.exists_counterpart hm
      simp only [hn, Option.map_some, h.pathOf_eq, hr.document_eq]
  simp only [report, hd]

-- The same is reported of both trees.
theorem exists_report (h : t.Reordered u) (ht : t.WellFormed) (hu : u.WellFormed) (s : Selector) :
    ∃ b c d, t.evaluate s = some b ∧ u.evaluate s = some c ∧
      t.report b.found = some d ∧ u.report c.found = some d := by
  have ⟨b, hb, hf⟩ := ht.exists_evaluate s
  have ⟨c, hc, _⟩ := hu.exists_evaluate s
  have he : c.found = b.found := by simpa [hb, hc] using h.evaluate_eq ht hu s
  have hlt : ∀ id ∈ b.found, id < t.size := hf ▸ ht.lt_size_of_mem_eraseDups
  have ⟨_, hd, _⟩ := Tree.exists_report hlt
  exact ⟨b, c, _, hb, hc, hd, by rw [he, h.report_eq, hd]⟩

end Tree.Reordered

section

variable {v v' : Json.Value} {text text' : String} {s s' : Spec}

end

namespace Spec

-- A spec below as many others, each with nothing but the next one as a child.
def nested (s : Spec) : Nat → Spec
  | 0     => s
  | n + 1 => ⟨"a", none, none, none, .empty, [s.nested n]⟩

end Spec

namespace Json.Document

def nested (d : Document) : Nat → Document
  | 0     => d
  | n + 1 => .object [("name", .text "a"), ("children", .array [d.nested n])]

variable {d : Document} {s : Spec} {n : Nat}

end Json.Document

end TreeQuery
