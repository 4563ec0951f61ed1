import TreeQuery.Proofs.Spec.Description

-- How the fields of a value are gathered, step by step, and what they make up in the end.
namespace TreeQuery.Spec

open Json

theorem Field.forall_iff {p : Field → Prop} :
    (∀ f, p f) ↔ p .name ∧ p .kind ∧ p .variant ∧ p .version ∧ p .attributes ∧ p .children := by
  constructor
  case mp  => exact fun h => ⟨h _, h _, h _, h _, h _, h _⟩
  case mpr => rintro ⟨_, _, _, _, _, _⟩ f; cases f <;> assumption

namespace Draft

def get? (d : Draft) : (f : Field) → Option f.Content
  | .name       => d.name
  | .kind       => d.kind
  | .variant    => d.variant
  | .version    => d.version
  | .attributes => d.attributes
  | .children   => d.children

def put (d : Draft) : (f : Field) → f.Content → Draft
  | .name,       name       => { d with name := some name }
  | .kind,       kind       => { d with kind := some kind }
  | .variant,    variant    => { d with variant := some variant }
  | .version,    version    => { d with version := some version }
  | .attributes, attributes => { d with attributes := some attributes }
  | .children,   children   => { d with children := some children }

variable {d d' : Draft} {f g : Field} {s : Spec}

theorem has_eq : d.has f = (d.get? f).isSome := by
  cases f <;> rfl

theorem get?_empty : empty.get? f = none := by
  cases f <;> rfl

theorem get?_put_self {x : f.Content} : (d.put f x).get? f = some x := by
  cases f <;> rfl

theorem get?_put_of_ne {x : f.Content} (h : g ≠ f) : (d.put f x).get? g = d.get? g := by
  cases f <;> cases g <;> first | rfl | contradiction

theorem eq_of_get? (h : ∀ f, d.get? f = d'.get? f) : d = d' := by
  cases d
  cases d'
  rw [mk.injEq]
  exact ⟨h .name, h .kind, h .variant, h .version, h .attributes, h .children⟩

theorem exists_get?_eq (contents : (f : Field) → Option f.Content) :
    ∃ d : Draft, ∀ f, d.get? f = contents f := by
  refine ⟨⟨contents .name, contents .kind, contents .variant, contents .version,
    contents .attributes, contents .children⟩, fun f => ?_⟩
  cases f <;> rfl

theorem or_some_eq_some_iff {α : Type} {o : Option α} {x y : α} :
    o.or (some x) = some y ↔ o.getD x = y := by
  cases o <;> simp

theorem getD_none_eq_join {α : Type} {o : Option (Option α)} : o.getD none = o.join := by
  cases o <;> rfl

-- A finished draft holds the content of each field, or the field has it by default.
theorem finish_eq_ok_iff :
    d.finish = .ok s ↔ ∀ f, (d.get? f).or f.default? = some (s.content f) := by
  cases s
  rw [Field.forall_iff]
  simp only [get?, content, Field.default?, or_some_eq_some_iff, getD_none_eq_join, finish]
  cases d.name <;> simp

end Draft

variable {s : Spec} {v : Json.Value} {vs : List Json.Value} {f : Field}
variable {fields : List (Field × Json.Value)}
variable {d d' : Draft} {n : Nat}

-- What the value of a field says about its content if it is nested `n` levels deep at most.
def Field.Limited (n : Nat) (f : Field) (v : Json.Value) (x : f.Content) : Prop :=
  f.Means DescribedBy v x ∧ v.depth ≤ n

-- How a draft grows when a field is read.
def FieldStep (n : Nat) (d : Draft) (field : Field × Json.Value) (d' : Draft) : Prop :=
  ∃ x, field.fst.Limited n field.snd x ∧ d' = d.put field.fst x

theorem depth_text (s : String) : (Json.Value.text s).depth = 0 := by
  simp [Json.Value.depth]

theorem depth_nullable (o : Option String) : (Json.Value.nullable o).depth = 0 := by
  cases o <;> simp [Json.Value.nullable, Json.Value.depth]

-- Where the content of a field can be written in one way only and without any brackets.
theorem limited_iff_eq {write : f.Content → Json.Value} {x : f.Content}
    (hw : ∀ x, f.Means DescribedBy (write x) x) (hu : ∀ v x, f.Means DescribedBy v x → v = write x)
    (hd : ∀ x, (write x).depth = 0) : v = write x ↔ f.Limited n v x := by
  constructor
  case mp  => rintro rfl; exact ⟨hw x, by simp [hd]⟩
  case mpr => rintro ⟨hm, _⟩; exact hu v x hm

-- How a draft grows when a member of an object is read.
def MemberStep (n : Nat) (d : Draft) (m : String × Json.Value) (d' : Draft) : Prop :=
  ∃ f, m.fst = f.key ∧ d.get? f = none ∧ FieldStep n d (f, m.snd) d'

theorem FieldStep.get?_self (h : FieldStep n d (f, v) d') :
    ∃ x, f.Limited n v x ∧ d'.get? f = some x := by
  obtain ⟨x, hx, rfl⟩ := h
  exact ⟨x, hx, Draft.get?_put_self⟩

theorem FieldStep.get?_of_ne (h : FieldStep n d (f, v) d') {g : Field} (hg : g ≠ f) :
    d'.get? g = d.get? g := by
  obtain ⟨x, _, rfl⟩ := h
  exact Draft.get?_put_of_ne hg

-- A draft takes the contents of the fields that are read and keeps all other contents.
theorem steps_field_iff (hn : (fields.map Prod.fst).Nodup) :
    Steps (FieldStep n) d fields d' ↔
      (∀ f v, (f, v) ∈ fields → ∃ x, f.Limited n v x ∧ d'.get? f = some x) ∧
      (∀ f, f ∉ fields.map Prod.fst → d'.get? f = d.get? f) := by
  induction fields generalizing d
  case nil =>
    simp only [Steps, List.not_mem_nil, List.map_nil, not_false_eq_true, forall_const,
      false_imp_iff, implies_true, true_and]
    exact ⟨fun h f => h ▸ rfl, Draft.eq_of_get?⟩
  case cons field fields hi =>
    obtain ⟨f, v⟩ := field
    obtain ⟨hf, hn⟩ := List.nodup_cons.mp hn
    constructor
    case mp =>
      rintro ⟨t, ht, hs⟩
      obtain ⟨hm, hk⟩ := (hi hn).mp hs
      obtain ⟨x, hx, hget⟩ := ht.get?_self
      constructor
      · intro g w hg
        cases hg
        case head => exact ⟨x, hx, hget ▸ hk f hf⟩
        case tail hg => exact hm g w hg
      · intro g hg
        have hne : g ≠ f := List.ne_of_not_mem_cons hg
        rw [hk g <| List.not_mem_of_not_mem_cons hg, ht.get?_of_ne hne]
    case mpr =>
      rintro ⟨hm, hk⟩
      obtain ⟨x, hx, hget⟩ := hm f v (.head _)
      refine ⟨d.put f x, ⟨x, hx, rfl⟩, (hi hn).mpr ⟨fun g w hg => hm g w (.tail _ hg), ?_⟩⟩
      intro g hg
      by_cases he : g = f
      case pos => rw [he, hget, Draft.get?_put_self]
      case neg =>
        rw [Draft.get?_put_of_ne he]
        exact hk g fun hm => (List.mem_cons.mp hm).elim he hg

-- The members of an object are read if they are fields that have not been read before.
theorem steps_member_iff {ms : List (String × Json.Value)} :
    Steps (MemberStep n) d ms d' ↔ ∃ fields, ms = fields.map asMember ∧
      (fields.map Prod.fst).Nodup ∧ (∀ f ∈ fields.map Prod.fst, d.get? f = none) ∧
      Steps (FieldStep n) d fields d' := by
  induction ms generalizing d
  case nil =>
    constructor
    case mp  => exact fun h => ⟨[], rfl, List.nodup_nil, List.forall_mem_nil _, h⟩
    case mpr =>
      rintro ⟨fields, hm, _, _, hs⟩
      cases List.map_eq_nil_iff.mp hm.symm
      exact hs
  case cons m ms hi =>
    constructor
    case mp =>
      rintro ⟨t, ⟨f, hf, hd, ht⟩, hs⟩
      obtain ⟨fields, hms, hn, hnone, hs⟩ := hi.mp hs
      obtain ⟨x, _, hget⟩ := ht.get?_self
      have hne (g : Field) (hg : g ∈ fields.map Prod.fst) : g ≠ f := by
        rintro rfl
        simp [hnone g hg] at hget
      refine ⟨(f, m.snd) :: fields, ?_, ?_, ?_, t, ht, hs⟩
      · rw [List.map_cons, ← hms, asMember, ← hf]
      · exact List.nodup_cons.mpr ⟨fun hf => hne f hf rfl, hn⟩
      · exact List.forall_mem_cons.mpr
          ⟨hd, fun g hg => ht.get?_of_ne (hne g hg) ▸ hnone g hg⟩
    case mpr =>
      rintro ⟨fields, hms, hn, hnone, hs⟩
      cases fields
      case nil => contradiction
      case cons field fields =>
        obtain ⟨rfl, htail⟩ := List.cons.inj hms
        obtain ⟨hf, hn⟩ := List.nodup_cons.mp hn
        obtain ⟨hd, hnone⟩ := List.forall_mem_cons.mp hnone
        obtain ⟨t, ht, hs⟩ := hs
        refine ⟨t, ⟨field.fst, rfl, hd, ht⟩, hi.mpr ⟨fields, htail, hn, ?_, hs⟩⟩
        intro g hg
        have hne : g ≠ field.fst := fun he => hf (he ▸ hg)
        rw [ht.get?_of_ne hne, hnone g hg]

-- What has been read at the end of a value.
def Drafted (n : Nat) (v : Json.Value) (d : Draft) : Prop :=
  ∃ fields, Gives v fields ∧ Steps (FieldStep n) .empty fields d

theorem drafted_object_iff {ms : List (String × Json.Value)} :
    Drafted n (.object ms) d ↔ Steps (MemberStep n) .empty ms d := by
  rw [steps_member_iff]
  constructor
  case mp =>
    rintro ⟨fields, ⟨hn⟩, hs⟩
    exact ⟨fields, rfl, hn, fun _ _ => Draft.get?_empty, hs⟩
  case mpr =>
    rintro ⟨fields, rfl, hn, _, hs⟩
    exact ⟨fields, .object hn, hs⟩

theorem drafted_array_iff : Drafted n (.array vs) d ↔
    vs.length ≤ Field.all.length ∧ Steps (FieldStep n) .empty (Field.all.zip vs) d := by
  constructor
  case mp =>
    rintro ⟨_, hg, hs⟩
    cases hg
    case array hl => exact ⟨hl, hs⟩
  case mpr => exact fun ⟨hl, hs⟩ => ⟨_, .array hl, hs⟩

-- A draft that can be finished has been read off a value that describes the spec.
theorem exists_drafted_iff :
    (∃ d, Drafted n v d ∧ d.finish = .ok s) ↔ s.DescribedBy v ∧ v.depth ≤ n + 1 := by
  simp only [Draft.finish_eq_ok_iff, describedBy_iff]
  constructor
  case mp =>
    rintro ⟨d, ⟨fields, hg, hs⟩, hd⟩
    have ⟨hm, hk⟩ := (steps_field_iff hg.nodup).mp hs
    have hc (f : Field) (v : Json.Value) (hf : (f, v) ∈ fields) : f.Limited n v (s.content f) := by
      have ⟨x, hx, hget⟩ := hm f v hf
      have hf := hd f
      rw [hget, Option.some_or, Option.some_inj] at hf
      exact hf ▸ hx
    refine ⟨⟨fields, hg, fun f v hf => (hc f v hf).left, fun f hf => ?_⟩, ?_⟩
    · have hf' := hd f
      rwa [hk f hf, Draft.get?_empty, Option.none_or] at hf'
    · exact hg.depth_le_succ_iff.mpr fun f v hf => (hc f v hf).right
  case mpr =>
    rintro ⟨⟨fields, hg, hm, hk⟩, hn⟩
    have hn := hg.depth_le_succ_iff.mp hn
    have ⟨d, hd⟩ := Draft.exists_get?_eq fun f =>
      if f ∈ fields.map Prod.fst then some (s.content f) else none
    refine ⟨d, ⟨fields, hg, (steps_field_iff hg.nodup).mpr ⟨?_, ?_⟩⟩, ?_⟩
    · intro f v hf
      exact ⟨_, ⟨hm f v hf, hn f v hf⟩, (hd f).trans <| if_pos <| List.mem_map_of_mem hf⟩
    · intro f hf
      rw [hd, if_neg hf, Draft.get?_empty]
    · intro f
      rw [hd]
      split
      case isTrue     => rfl
      case isFalse hf => exact hk f hf

end TreeQuery.Spec
