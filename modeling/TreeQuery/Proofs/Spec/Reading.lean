import TreeQuery.Proofs.Spec.Drafting

-- A value is read exactly if it describes a spec, and then as that spec.
namespace TreeQuery.Spec

open Json

variable {s : Spec} {v : Json.Value} {vs : List Json.Value} {f : Field} {d d' : Draft} {n : Nat}

theorem finish_of_iff {e : Except Fault (Draft × List Char)} {p : Draft → Prop}
    {rest rest' : List Char} (h : ∀ d rest', e = .ok (d, rest') ↔ p d ∧ rest' = rest) :
    (do let (d, rest) ← e; return (← d.finish, rest)) = .ok (s, rest') ↔
      (∃ d, p d ∧ d.finish = .ok s) ∧ rest' = rest := by
  change e.bind _ = _ ↔ _
  rw [bind_eq_ok_iff h]
  simp only [← exists_and_right, and_assoc]
  refine exists_congr fun d => and_congr_right fun _ => ?_
  cases d.finish <;> simp [bind, Except.bind, pure, Except.pure, eq_comm]

theorem readInOrder_of_nextItem_eq_item {attributes : Reader Attributes}
    {children : Reader (List Spec)} {isFirst : Bool} {fs : List Field} {cs rest : List Char}
    (h : nextItem ']' isFirst cs = .ok (.item rest)) :
    readInOrder attributes children isFirst d (f :: fs) cs =
      ((fieldValue attributes children d f).read rest).bind fun (d, rest) =>
        readInOrder attributes children false d fs rest := by
  rw [readInOrder, h]
  simp only [Except.bind]
  split <;> simp_all

section

variable {attributes : Reader Attributes} {children : Reader (List Spec)}
variable (ha : Reads attributes.read (Padded Json.Value.Spelled) (Field.attributes.Limited n))
variable (hc : Reads children.read (Padded Json.Value.Spelled) (Field.children.Limited n))
include ha hc

theorem reads_fieldValue :
    Reads (fieldValue attributes children d f).read (Padded Json.Value.Spelled)
      fun v d' => FieldStep n d (f, v) d' := by
  cases f
  case name =>
    exact (Reads.text.congr fun _ _ =>
      limited_iff_eq (fun _ => .name) (fun | _, _, .name => rfl) depth_text).map (d.put .name)
  case kind =>
    exact (Reads.nullableText.congr fun _ _ =>
      limited_iff_eq (fun _ => .kind) (fun | _, _, .kind => rfl) depth_nullable).map (d.put .kind)
  case variant =>
    exact (Reads.nullableText.congr fun _ _ =>
      limited_iff_eq (fun _ => .variant) (fun | _, _, .variant => rfl) depth_nullable).map
        (d.put .variant)
  case version =>
    exact (Reads.nullableText.congr fun _ _ =>
      limited_iff_eq (fun _ => .version) (fun | _, _, .version => rfl) depth_nullable).map
        (d.put .version)
  case attributes => exact ha.map (d.put .attributes)
  case children   => exact hc.map (d.put .children)

-- A member is read if its key is that of a field that has not been read before.
theorem reads_member : Reads (member attributes children d).read (MemberSpelled Json.Value.Spelled)
    (MemberStep n d) := by
  refine Reads.member (fun key v d' => ∃ f, key = f.key ∧ d.get? f = none ∧ FieldStep n d (f, v) d')
    fun key => ?_
  simp only [← Field.ofKey?_eq_some_iff]
  cases hk : Field.ofKey? key
  case none => exact Reads.fail fun _ _ => by simp
  case some f =>
    change Reads (if d.has f then _ else _ : Reader Draft).read BehindKey _
    rw [Draft.has_eq]
    cases hf : d.get? f
    case some => exact Reads.fail fun _ _ => by simp [hf]
    case none => exact (reads_fieldValue ha hc).behindKey.congr fun _ _ => by simp [hf]

theorem readInOrder_eq_ok_iff {isFirst : Bool} (fs : List Field) {cs rest rest' : List Char}
    (h : Items Json.Value.Spelled isFirst vs cs) :
    readInOrder attributes children isFirst d fs (cs ++ ']' :: rest) = .ok (d', rest') ↔
      (vs.length ≤ fs.length ∧ Steps (FieldStep n) d (fs.zip vs) d') ∧ rest' = rest := by
  induction fs generalizing vs d isFirst cs
  case nil =>
    cases vs
    case nil =>
      cases h
      case done hg =>
        rw [readInOrder, hg.skipBlanks_append_cons (by rfl)]
        simp [Steps, eq_comm]
    case cons =>
      obtain ⟨c, tail, hc, hs⟩ := h.exists_skipBlanks isItem_value (by decide)
      simp [readInOrder, hs, hc]
  case cons f fs hi =>
    cases vs
    case nil =>
      cases h
      case done hg =>
        rw [readInOrder, nextItem_of_blanks (by rfl) hg]
        simp [Steps, eq_comm]
    case cons v vs =>
      obtain ⟨head, others, hhead, hothers, hn⟩ := h.exists_next isItem_value (by decide)
      rw [readInOrder_of_nextItem_eq_item <| hn _,
        bind_eq_ok_iff <| (reads_fieldValue ha hc).of_padded.eq_ok_iff hhead _]
      simp only [hi hothers, Steps, List.zip_cons_cons, List.length_cons, Nat.add_le_add_iff_right]
      constructor
      case mp  => rintro ⟨t, ht, ⟨hl, hs⟩, hrest⟩; exact ⟨⟨hl, t, ht, hs⟩, hrest⟩
      case mpr => rintro ⟨⟨hl, t, ht, hs⟩, hrest⟩; exact ⟨t, ht, ⟨hl, hs⟩, hrest⟩

theorem reads_readNode {isTooDeep : Bool} : Reads (readNode attributes children isTooDeep)
    Json.Value.Spelled fun v s => isTooDeep = false ∧ ∃ d, Drafted n v d ∧ d.finish = .ok s := by
  refine ⟨fun {v cs} hs rest s rest' => ?_⟩
  rcases encloses_object hs with ⟨ms, body, rfl, rfl, hi⟩ | ⟨hobject, c, tail, rfl, hbrace⟩
  · cases isTooDeep
    case true => simp [readNode, bind, Except.bind, throw, throwThe, MonadExceptOf.throw]
    case false =>
      simp only [true_and, drafted_object_iff]
      rw [List.cons_append, List.cons_append, List.append_assoc]
      exact finish_of_iff fun _ _ =>
        readItems_eq_ok_iff (fun _ => reads_member ha hc) isItem_member rfl (by decide) hi
  rcases encloses_array hs with ⟨vs, body, rfl, hcs, hi⟩ | ⟨harray, c', tail', hcs, hbracket⟩
  · rw [hcs]
    cases isTooDeep
    case true => simp [readNode, bind, Except.bind, throw, throwThe, MonadExceptOf.throw]
    case false =>
      simp only [true_and, drafted_array_iff]
      rw [List.cons_append, List.cons_append, List.append_assoc]
      exact finish_of_iff fun _ _ => readInOrder_eq_ok_iff ha hc Field.all hi
  · obtain ⟨rfl, rfl⟩ := List.cons.inj hcs
    have hn (d : Draft) : ¬Drafted n v d := by
      rintro ⟨_, hg, _⟩
      cases hg
      case object => exact hobject _ rfl
      case array  => exact harray _ rfl
    simp [readNode, hbrace, hbracket, hn]

theorem reads_node {isTooDeep : Bool} :
    Reads (node attributes children isTooDeep).read (Padded Json.Value.Spelled)
      fun v s => isTooDeep = false ∧ s.DescribedBy v ∧ v.depth ≤ n + 1 :=
  ((reads_readNode ha hc).congr fun _ _ => and_congr_right fun _ => exists_drafted_iff).afterBlanks

end

-- How the attributes grow when an entry is read.
def EntryStep (as : Attributes) (m : String × Json.Value) (as' : Attributes) : Prop :=
  ∃ s, m.snd = .text s ∧ as' = as.insert m.fst s

theorem reads_entry {as : Attributes} :
    Reads (entry as).read (MemberSpelled Json.Value.Spelled) (EntryStep as) :=
  Reads.member (fun key v as' => ∃ s, v = .text s ∧ as' = as.insert key s) fun key =>
    (Reads.text.map (as.insert key)).behindKey

theorem steps_entry_iff {as as' : Attributes} {ms : List (String × Json.Value)} :
    Steps EntryStep as ms as' ↔
      ∃ entries : List (String × String), ms = entries.map (fun (key, s) => (key, .text s)) ∧
        as' = entries.foldl (fun as (key, value) => as.insert key value) as := by
  induction ms generalizing as
  case nil => simp [Steps]
  case cons m ms hi =>
    simp only [Steps, hi]
    constructor
    case mp =>
      rintro ⟨t, ⟨s, hs, rfl⟩, entries, rfl, rfl⟩
      exact ⟨(m.fst, s) :: entries, by simp [← hs], rfl⟩
    case mpr =>
      rintro ⟨entries, hms, rfl⟩
      cases entries
      case nil => contradiction
      case cons e entries =>
        obtain ⟨rfl, rfl⟩ := List.cons.inj hms
        exact ⟨_, ⟨e.snd, rfl, rfl⟩, entries, rfl, rfl⟩

theorem depth_entries {entries : List (String × String)} :
    (Json.Value.object <| entries.map fun (key, s) => (key, .text s)).depth = 1 := by
  rw [Json.Value.depth, Json.Value.depthOfMembers_eq, Nat.add_eq_right, ← Nat.le_zero,
    Json.Value.depthOfItems_le_iff]
  intro v hv
  simp only [List.map_map, List.mem_map] at hv
  obtain ⟨e, _, rfl⟩ := hv
  simp [Json.Value.depth]

theorem reads_attributesAt :
    Reads (attributesAt n).read (Padded Json.Value.Spelled) (Field.attributes.Limited n) := by
  refine (Reads.object fun _ => reads_entry).congr fun v as => ?_
  simp only [steps_entry_iff, decide_eq_false_iff_not]
  constructor
  case mp =>
    rintro ⟨hn, _, rfl, entries, rfl, rfl⟩
    refine ⟨.attributes, ?_⟩
    rw [depth_entries]
    omega
  case mpr =>
    rintro ⟨⟨⟩, hn⟩
    rw [depth_entries] at hn
    exact ⟨by omega, _, rfl, _, rfl, rfl⟩

-- How the children grow when a node is read.
def ChildStep (n : Nat) (specs : List Spec) (v : Json.Value) (specs' : List Spec) : Prop :=
  ∃ s : Spec, (s.DescribedBy v ∧ v.depth ≤ n) ∧ specs' = specs ++ [s]

theorem steps_child_iff {specs specs' : List Spec} :
    Steps (ChildStep n) specs vs specs' ↔ ∃ added, specs' = specs ++ added ∧
      List.Forall₂ DescribedBy added vs ∧ ∀ v ∈ vs, v.depth ≤ n := by
  induction vs generalizing specs
  case nil => simp [Steps]
  case cons v vs hi =>
    simp only [Steps, hi]
    constructor
    case mp =>
      rintro ⟨_, ⟨s, ⟨hs, hn⟩, rfl⟩, added, rfl, ha, hd⟩
      exact ⟨s :: added, by simp, .cons hs ha, List.forall_mem_cons.mpr ⟨hn, hd⟩⟩
    case mpr =>
      rintro ⟨_, rfl, _ | ⟨hs, ha⟩, hd⟩
      obtain ⟨hn, hd⟩ := List.forall_mem_cons.mp hd
      exact ⟨_, ⟨_, ⟨hs, hn⟩, rfl⟩, _, by simp, ha, hd⟩

theorem not_limited_children_zero {specs : List Spec} : ¬Field.children.Limited 0 v specs := by
  rintro ⟨⟨⟩, hn⟩
  simp [Json.Value.depth] at hn

theorem limited_children_succ_iff {specs : List Spec} :
    Field.children.Limited (n + 1) v specs ↔
      ∃ vs, v = .array vs ∧ List.Forall₂ DescribedBy specs vs ∧ ∀ v ∈ vs, v.depth ≤ n := by
  constructor
  case mp =>
    rintro ⟨hm, hd⟩
    cases hm
    case children hs =>
      rw [Json.Value.depth, Nat.add_le_add_iff_right, Json.Value.depthOfItems_le_iff] at hd
      exact ⟨_, rfl, hs, hd⟩
  case mpr =>
    rintro ⟨vs, rfl, hs, hd⟩
    refine ⟨.children hs, ?_⟩
    rwa [Json.Value.depth, Nat.add_le_add_iff_right, Json.Value.depthOfItems_le_iff]

-- Nodes are read by way of their children, and children by way of the nodes among them, each time
-- with one level less to go.
theorem reads_nodeAt_and_childrenAt (n : Nat) :
    Reads (nodeAt n).read (Padded Json.Value.Spelled) (fun v s => s.DescribedBy v ∧ v.depth ≤ n) ∧
      Reads (childrenAt n).read (Padded Json.Value.Spelled) (Field.children.Limited n) := by
  induction n
  case zero =>
    constructor
    · rw [nodeAt]
      refine (reads_node reads_attributesAt <| Reads.fail ?children).congr fun v s => ?node
      case children => exact fun _ _ => not_limited_children_zero
      case node =>
        refine iff_of_false (by simp) ?_
        rintro ⟨hs, hn⟩
        exact Nat.not_lt_of_le hn hs.depth_pos
    · rw [childrenAt]
      refine (Reads.array fun _ => Reads.fail fun _ _ => id).congr fun v specs => ?_
      exact iff_of_false (by simp) not_limited_children_zero
  case succ n hi =>
    constructor
    · rw [nodeAt]
      exact (reads_node reads_attributesAt hi.right).congr fun v s => by simp
    · rw [childrenAt]
      have hr (specs : List Spec) :
          Reads ((nodeAt n).map (specs ++ [·])).read Json.Value.Spelled (ChildStep n specs) :=
        hi.left.of_padded.map (specs ++ [·])
      refine (Reads.array hr).congr fun v specs => ?_
      simp [steps_child_iff, limited_children_succ_iff]

theorem ofJson_eq_ok_iff {text : String} (h : v.SpelledBy text) :
    ofJson text = .ok s ↔ s.DescribedBy v ∧ v.depth ≤ maxDepth := by
  cases h
  case mk gap cs gap' hg hs hg' ht =>
    have hp : Padded Json.Value.Spelled v (gap ++ cs) := ⟨gap, cs, hg, hs, rfl⟩
    have hr := (reads_nodeAt_and_childrenAt maxDepth).left.eq_ok_iff hp gap'
    have hb : skipBlanks (gap' ++ []) = [] := hg'.skipBlanks_append
    rw [List.append_nil] at hb
    change ((nodeAt maxDepth).read text.toList).bind _ = _ ↔ _
    rw [ht, bind_eq_ok_iff hr]
    simp [hb, pure, Except.pure]

end TreeQuery.Spec
