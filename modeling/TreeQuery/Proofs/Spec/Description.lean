import Mathlib.Data.List.Nodup
import TreeQuery.Proofs.Json.Reader
import TreeQuery.Spec.Reader

-- Which values describe which specs.
namespace TreeQuery.Spec

open Json

namespace Field

def key : Field → String
  | name       => "name"
  | kind       => "type"
  | variant    => "variant"
  | version    => "version"
  | attributes => "attributes"
  | children   => "children"

-- In the order in which an array gives them.
def all : List Field :=
  [name, kind, variant, version, attributes, children]

abbrev Content : Field → Type
  | name                     => String
  | kind | variant | version => Option String
  | attributes               => Attributes
  | children                 => List Spec

-- The content of a field that is not given. Only the name of a node must be given.
def default? : (f : Field) → Option f.Content
  | name       => none
  | kind       => some (none : Option String)
  | variant    => some (none : Option String)
  | version    => some (none : Option String)
  | attributes => some Attributes.empty
  | children   => some ([] : List Spec)

theorem mem_all (f : Field) : f ∈ all := by
  cases f <;> decide

theorem nodup_all : all.Nodup := by
  decide

theorem ofKey?_key {f : Field} : ofKey? f.key = some f := by
  cases f <;> rfl

theorem key_injective : key.Injective := by
  intro f g h
  simpa [ofKey?_key] using congrArg ofKey? h

theorem ofKey?_eq_some_iff {key : String} {f : Field} : ofKey? key = some f ↔ key = f.key := by
  constructor
  case mp =>
    intro h
    unfold ofKey? at h
    split at h <;> cases h <;> rfl
  case mpr =>
    rintro rfl
    exact ofKey?_key

-- What the value of a field says about its content.
inductive Means (describedBy : Spec → Json.Value → Prop) :
    (f : Field) → Json.Value → f.Content → Prop
  | name {s : String} : Means describedBy .name (.text s) s
  | kind {o : Option String} : Means describedBy .kind (.nullable o) o
  | variant {o : Option String} : Means describedBy .variant (.nullable o) o
  | version {o : Option String} : Means describedBy .version (.nullable o) o
  | attributes {entries : List (String × String)} :
    Means describedBy .attributes (.object <| entries.map fun (key, s) => (key, .text s))
      (Attributes.ofList entries)
  | children {specs : List Spec} {vs : List Json.Value} :
    List.Forall₂ describedBy specs vs → Means describedBy .children (.array vs) specs

end Field

def content (s : Spec) : (f : Field) → f.Content
  | .name       => s.name
  | .kind       => s.kind
  | .variant    => s.variant
  | .version    => s.version
  | .attributes => s.attributes
  | .children   => s.children

-- A field with its value as an object has it.
def asMember (field : Field × Json.Value) : String × Json.Value :=
  (field.fst.key, field.snd)

-- An object names its fields. An array gives them in order and can leave out the last ones.
inductive Gives : Json.Value → List (Field × Json.Value) → Prop
  | object {fields : List (Field × Json.Value)} :
    (fields.map Prod.fst).Nodup → Gives (.object <| fields.map asMember) fields
  | array {vs : List Json.Value} :
    vs.length ≤ Field.all.length → Gives (.array vs) (Field.all.zip vs)

-- The fields that are given say what the spec holds, and the other ones have their defaults.
inductive DescribedBy : Spec → Json.Value → Prop
  | mk {s : Spec} {v : Json.Value} {fields : List (Field × Json.Value)} :
    Gives v fields →
    (∀ f v', (f, v') ∈ fields → f.Means DescribedBy v' (s.content f)) →
    (∀ f, f ∉ fields.map Prod.fst → f.default? = some (s.content f)) →
    DescribedBy s v

-- Objects that describe no node, whatever else they hold.
inductive IsFaulty (ms : List (String × Json.Value)) : Prop
  | unknown {key : String} : key ∈ ms.map Prod.fst → (∀ f : Field, key ≠ f.key) → IsFaulty ms
  | repeated : ¬(ms.map Prod.fst).Nodup → IsFaulty ms
  | nameless : "name" ∉ ms.map Prod.fst → IsFaulty ms
  | null {f : Field} :
    f ∈ [Field.name, Field.attributes, Field.children] → (f.key, Json.Value.null) ∈ ms → IsFaulty ms

-- Some object in the place of a node is faulty, at whatever depth. The values around it are
-- arbitrary.
inductive HasFaultyNode : Json.Value → Prop
  | here {ms : List (String × Json.Value)} : IsFaulty ms → HasFaultyNode (.object ms)
  | inObject {ms : List (String × Json.Value)} {vs : List Json.Value} {v : Json.Value} :
    (Field.children.key, .array vs) ∈ ms → v ∈ vs → HasFaultyNode v → HasFaultyNode (.object ms)
  | inArray {us vs : List Json.Value} {v : Json.Value} :
    (Field.children, .array vs) ∈ Field.all.zip us → v ∈ vs → HasFaultyNode v →
    HasFaultyNode (.array us)

variable {s : Spec} {v : Json.Value} {vs : List Json.Value} {f : Field}
variable {fields : List (Field × Json.Value)}
variable {describedBy : Spec → Json.Value → Prop} {n : Nat}

theorem keys_eq : (fields.map asMember).map Prod.fst = (fields.map Prod.fst).map Field.key := by
  simp [asMember]

theorem key_mem_iff : (f.key, v) ∈ fields.map asMember ↔ (f, v) ∈ fields := by
  constructor
  case mp =>
    intro h
    have ⟨⟨g, w⟩, hm, he⟩ := List.mem_map.mp h
    obtain ⟨hk, rfl⟩ := Prod.mk.inj he
    exact Field.key_injective hk ▸ hm
  case mpr => exact fun h => List.mem_map.mpr ⟨_, h, rfl⟩

theorem Gives.nodup (h : Gives v fields) : (fields.map Prod.fst).Nodup := by
  cases h
  case object h => exact h
  case array vs _ =>
    rw [List.zip_eq_zip_take_min, List.map_fst_zip (by simp)]
    exact Field.nodup_all.sublist <| List.take_sublist _ _

theorem Gives.depth_eq (h : Gives v fields) :
    v.depth = Json.Value.depthOfItems (fields.map Prod.snd) + 1 := by
  cases h
  case object => simp [Json.Value.depth, Json.Value.depthOfMembers_eq, Function.comp_def, asMember]
  case array hl => rw [Json.Value.depth, List.map_snd_zip hl]

-- An array or an object is nested one level deeper than the values of its fields.
theorem Gives.depth_le_succ_iff (h : Gives v fields) :
    v.depth ≤ n + 1 ↔ ∀ f v', (f, v') ∈ fields → v'.depth ≤ n := by
  rw [h.depth_eq, Nat.add_le_add_iff_right, Json.Value.depthOfItems_le_iff, List.forall_mem_map,
    Prod.forall]

theorem Field.Means.exists_of_mem {specs : List Spec}
    (h : Field.children.Means describedBy (.array vs) specs) (hv : v ∈ vs) :
    ∃ s, describedBy s v := by
  cases h
  case children h =>
    induction h
    case nil => contradiction
    case cons s w _ _ hd _ hi =>
      rcases List.mem_cons.mp hv with rfl | hv
      · exact ⟨s, hd⟩
      · exact hi hv

theorem Field.Means.ne_null {x : f.Content} (h : f.Means describedBy .null x)
    (hf : f ∈ [Field.name, Field.attributes, Field.children]) : False := by
  generalize hv : Json.Value.null = v at h
  cases h <;> simp_all

theorem describedBy_iff : s.DescribedBy v ↔ ∃ fields, Gives v fields ∧
    (∀ f v', (f, v') ∈ fields → f.Means DescribedBy v' (s.content f)) ∧
    (∀ f, f ∉ fields.map Prod.fst → f.default? = some (s.content f)) := by
  constructor
  case mp  => rintro ⟨hg, hm, hd⟩; exact ⟨_, hg, hm, hd⟩
  case mpr => rintro ⟨_, hg, hm, hd⟩; exact ⟨hg, hm, hd⟩

theorem describedBy_object (fields : List (Field × Json.Value)) (hn : (fields.map Prod.fst).Nodup)
    (hm : ∀ p ∈ fields, p.fst.Means DescribedBy p.snd (s.content p.fst))
    (hd : ∀ f, f ∉ fields.map Prod.fst → f.default? = some (s.content f)) :
    s.DescribedBy (.object <| fields.map asMember) :=
  describedBy_iff.mpr ⟨fields, .object hn, fun _ _ hf => hm _ hf, hd⟩

theorem DescribedBy.depth_pos (h : s.DescribedBy v) : 0 < v.depth := by
  have ⟨_, hg, _⟩ := describedBy_iff.mp h
  exact hg.depth_eq ▸ Nat.succ_pos _

theorem DescribedBy.not_isFaulty {ms : List (String × Json.Value)}
    (h : s.DescribedBy (.object ms)) : ¬IsFaulty ms := by
  intro hf
  have ⟨fields, hg, hm, hd⟩ := describedBy_iff.mp h
  cases hg
  case object hn =>
    cases hf
    case unknown key hk hne =>
      rw [keys_eq, List.mem_map] at hk
      have ⟨_, _, he⟩ := hk
      exact hne _ he.symm
    case repeated hr =>
      apply hr
      rw [keys_eq]
      exact hn.map Field.key_injective
    case nameless hk =>
      rw [keys_eq] at hk
      have hn := hd .name <| mt (List.mem_map_of_mem (f := Field.key)) hk
      simp [Field.default?] at hn
    case null hf hk => exact (hm _ _ <| key_mem_iff.mp hk).ne_null hf

-- Around a faulty node nothing describes a spec.
theorem DescribedBy.not_hasFaultyNode (h : s.DescribedBy v) : ¬HasFaultyNode v := by
  intro hf
  induction hf generalizing s
  case here hf => exact h.not_isFaulty hf
  case inObject hk hv _ hi =>
    have ⟨fields, hg, hm, _⟩ := describedBy_iff.mp h
    cases hg
    case object =>
      have ⟨c, hc⟩ := (hm _ _ <| key_mem_iff.mp hk).exists_of_mem hv
      exact hi hc
  case inArray hk hv _ hi =>
    have ⟨fields, hg, hm, _⟩ := describedBy_iff.mp h
    cases hg
    case array =>
      have ⟨c, hc⟩ := (hm _ _ hk).exists_of_mem hv
      exact hi hc

end TreeQuery.Spec
