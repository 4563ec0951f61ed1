import TreeQuery.Node

namespace TreeQuery

-- The pairs of a key and a text that conditions compare. Conditions that accept any value compare
-- nothing.

def Condition.comparison? (c : Condition) : Option (String × String) :=
  match c.value with
  | .any          => none
  | .exactly text => some (c.key, text)

def Filter.comparisons (f : Filter) : List (String × String) :=
  f.conditions.filterMap Condition.comparison?

def Segment.comparisons (s : Segment) : List (String × String) :=
  s.filter.elim [] Filter.comparisons

def Alternative.comparisons (a : Alternative) : List (String × String) :=
  (a.first :: a.path).flatMap Segment.comparisons

def Selector.comparisons (s : Selector) : List (String × String) :=
  s.alternatives.flatMap Alternative.comparisons

variable {c : Condition} {f : Filter} {m n : Node}

theorem Condition.accepts_iff :
    c.accepts n ↔ ∀ p ∈ c.comparison?, n.property? p.1 = some p.2 := by
  match c with
  | ⟨_, .any⟩       => simp [accepts, comparison?]
  | ⟨_, .exactly _⟩ => simp [accepts, comparison?]

-- A filter counts only through what it compares.
theorem Filter.accepts_iff : f.accepts n ↔ ∀ p ∈ f.comparisons, n.property? p.1 = some p.2 := by
  simp only [accepts, List.all_eq_true, Condition.accepts_iff, comparisons, List.mem_filterMap]
  constructor
  case mp  => exact fun h p ⟨c, hc, hp⟩ => h c hc p hp
  case mpr => exact fun h c hc p hp => h p ⟨c, hc, hp⟩

-- The nodes agree on what the key denotes: a built-in property if it is the name of one, whatever
-- the attributes of that name are, and otherwise an attribute.
def Node.AgreeOn (m n : Node) (key : String) : Prop :=
  match key with
  | "type"    => m.kind = n.kind
  | "variant" => m.variant = n.variant
  | "version" => m.version = n.version
  | _         => m.attributes.get? key = n.attributes.get? key

theorem Node.AgreeOn.property?_eq {key : String} (h : m.AgreeOn n key) :
    m.property? key = n.property? key := by
  unfold AgreeOn at h
  unfold property?
  split at h <;> simp_all

theorem Filter.accepts_congr (h : ∀ p ∈ f.comparisons, m.AgreeOn n p.1) :
    f.accepts m = f.accepts n := by
  rw [Bool.eq_iff_iff, accepts_iff, accepts_iff]
  exact forall₂_congr fun p hp => by rw [(h p hp).property?_eq]

end TreeQuery
