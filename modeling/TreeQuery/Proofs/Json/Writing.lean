import Mathlib.Data.List.Nodup
import TreeQuery.Json.Document
import TreeQuery.Proofs.Json.Spelling

namespace TreeQuery.Json

variable {c : Char} {l : Layout} {n : Nat}

theorem hexDigit?_digitChar (h : n < 16) : hexDigit? n.digitChar = some n := by
  have ha : ∀ n : Fin 16, hexDigit? n.val.digitChar = some n.val := by decide
  exact ha ⟨n, h⟩

theorem unitSpelled_of_lt (h : n < 0x20) :
    UnitSpelled n ['0', '0', (n / 16).digitChar, (n % 16).digitChar] := by
  have h₀ : n / 0x1000 = 0 := by omega
  have h₁ : n / 0x100 % 0x10 = 0 := by omega
  have h₂ : n / 0x10 % 0x10 = n / 16 := by omega
  rw [UnitSpelled, h₀, h₁, h₂]
  refine .cons (by decide) <| .cons (by decide) <| .cons ?_ <| .cons ?_ .nil
  · exact hexDigit?_digitChar (by omega)
  · exact hexDigit?_digitChar (by omega)

theorem charSpelled_escape : CharSpelled c (escape c) := by
  unfold escape
  split
  case h_8 hq hb _ _ _ _ _ =>
    split
    case isTrue h  => exact .unit <| unitSpelled_of_lt h
    case isFalse h => exact .plain hq hb (by omega)
  all_goals exact .short (by decide)

theorem quoted_quote {s : String} : Quoted s (quote s) := by
  have hp : List.Forall₂ CharSpelled s.toList (s.toList.map escape) := by
    rw [List.forall₂_map_right_iff]
    exact List.forall₂_same.mpr fun _ _ => charSpelled_escape
  rw [quote, List.flatMap_def]
  exact .mk hp

theorem blanks_nil : Blanks [] :=
  List.forall_mem_nil _

theorem Layout.blanks_newline (l : Layout) (n : Nat) : Blanks (l.newline n) := by
  intro c hc
  cases l
  case compact  => cases hc
  case indented =>
    cases List.mem_cons.mp hc
    case inl hc => exact hc ▸ rfl
    case inr hc => exact List.eq_of_mem_replicate hc ▸ rfl

theorem Layout.colon_eq : ∃ gap, l.colon = ':' :: gap ∧ Blanks gap := by
  cases l
  case compact  => exact ⟨[], rfl, blanks_nil⟩
  case indented => exact ⟨[' '], rfl, by simp [Blanks, isBlank]⟩

namespace Document

-- The value that a document writes down.
mutual

def value : Document → Value
  | null      => .null
  | text s    => .text s
  | array ds  => .array (values ds)
  | object fs => .object (members fs)

def values : List Document → List Value
  | []      => []
  | d :: ds => d.value :: values ds

def members : List (String × Document) → List (String × Value)
  | []             => []
  | (key, d) :: fs => (key, d.value) :: members fs

end

mutual

theorem spelled_write (d : Document) (n : Nat) : d.value.Spelled (d.write l n) := by
  match d with
  | null            => exact .null
  | text _          => exact .text quoted_quote
  | array []        => exact Value.Spelled.array <| .done blanks_nil
  | object []       => exact Value.Spelled.object <| .done blanks_nil
  | array (d :: ds) =>
    have hi := Items.first (l.blanks_newline (n + 1)) (spelled_write d (n + 1)) <|
      items_writeItems ds (n + 1) (l.blanks_newline n)
    simpa [write, value, values] using Value.Spelled.array hi
  | object (f :: fs) =>
    have hi := Items.first (l.blanks_newline (n + 1)) (memberSpelled_writeField f (n + 1)) <|
      items_writeFields fs (n + 1) (l.blanks_newline n)
    simpa [write, value, members] using Value.Spelled.object hi

theorem items_writeItems (ds : List Document) (n : Nat) {gap} (hg : Blanks gap) :
    Items Value.Spelled false (values ds) (writeItems l n ds ++ gap) := by
  match ds with
  | []      => exact .done hg
  | d :: ds =>
    have hi := Items.next blanks_nil (l.blanks_newline n) (spelled_write d n) <|
      items_writeItems ds n hg
    simpa [writeItems, values] using hi

theorem memberSpelled_writeField (f : String × Document) (n : Nat) :
    MemberSpelled Value.Spelled (f.1, f.2.value) (writeField l n f) := by
  match f with
  | (key, d) =>
    have ⟨gap, hc, hb⟩ := l.colon_eq
    have hk : Quoted key (quote key) := quoted_quote
    simpa [writeField, hc] using MemberSpelled.mk hk blanks_nil hb (spelled_write d n)

theorem items_writeFields (fs : List (String × Document)) (n : Nat) {gap} (hg : Blanks gap) :
    Items (MemberSpelled Value.Spelled) false (members fs) (writeFields l n fs ++ gap) := by
  match fs with
  | []      => exact .done hg
  | f :: fs =>
    have hi := Items.next blanks_nil (l.blanks_newline n) (memberSpelled_writeField f n) <|
      items_writeFields fs n hg
    simpa [writeFields, members] using hi

end

theorem spelledBy_toText (d : Document) (l : Layout) : d.value.SpelledBy (d.toText l) := by
  have hs : (d.toText l).toList = [] ++ d.write l 0 ++ [] := by simp [toText]
  exact .mk blanks_nil (spelled_write d 0) blanks_nil hs

theorem values_eq_map {ds : List Document} : values ds = ds.map value := by
  induction ds
  case nil => rw [values, List.map_nil]
  case cons hi => rw [values, List.map_cons, hi]

theorem members_eq_map {fs : List (String × Document)} :
    members fs = fs.map fun (key, d) => (key, d.value) := by
  induction fs
  case nil => rw [members, List.map_nil]
  case cons f fs hi =>
    obtain ⟨key, d⟩ := f
    rw [members, List.map_cons, hi]

-- The order of the fields is all that a record changes.
theorem exists_value_record (fs : List (String × Document)) :
    ∃ ms, (record fs).value = .object ms ∧ ms.Perm (fs.map fun (key, d) => (key, d.value)) := by
  refine ⟨_, by rw [record, value, members_eq_map], ?_⟩
  exact (List.mergeSort_perm fs _).map _

-- Records are written in the order of their keys, whatever the order of their fields is.
theorem pairwise_mergeSort_keys (fs : List (String × Document)) :
    (fs.mergeSort (·.1 ≤ ·.1)).Pairwise fun f g => f.1 ≤ g.1 := by
  have ht (f g h : String × Document) (hf : decide (f.1 ≤ g.1)) (hg : decide (g.1 ≤ h.1)) :
      decide (f.1 ≤ h.1) := by
    rw [decide_eq_true_iff] at hf hg ⊢
    exact String.le_trans hf hg
  have hl (f g : String × Document) : (decide (f.1 ≤ g.1) || decide (g.1 ≤ f.1)) = true := by
    simpa using String.le_total f.1 g.1
  simpa using List.pairwise_mergeSort ht hl fs

theorem record_eq_of_perm {fs gs : List (String × Document)} (h : fs.Perm gs)
    (hn : (fs.map Prod.fst).Nodup) : record fs = record gs := by
  have hp : (fs.mergeSort (·.1 ≤ ·.1)).Perm (gs.mergeSort (·.1 ≤ ·.1)) :=
    (List.mergeSort_perm ..).trans <| h.trans (List.mergeSort_perm ..).symm
  rw [record, record]
  congr 1
  refine hp.eq_of_pairwise ?_ (pairwise_mergeSort_keys fs) (pairwise_mergeSort_keys gs)
  intro f g hf hg hfg hgf
  have hf := List.mem_mergeSort.mp hf
  have hg := h.mem_iff.mpr <| List.mem_mergeSort.mp hg
  exact List.inj_on_of_nodup_map hn hf hg <| String.le_antisymm hfg hgf

theorem record_of_pairwise {fs : List (String × Document)}
    (h : fs.Pairwise fun f g => f.1 ≤ g.1) : record fs = .object fs := by
  rw [record, List.mergeSort_of_pairwise <| h.imp fun h => decide_eq_true h]

end Document
end TreeQuery.Json
