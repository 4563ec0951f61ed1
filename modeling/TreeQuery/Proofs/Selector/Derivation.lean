import Mathlib.Data.List.Basic
import TreeQuery.Proofs.Selector.Grammar
import TreeQuery.Selector.Reading

namespace TreeQuery

variable {t : Token} {s : Step} {place : Place} {cs : List Condition}

theorem Step.ofToken?_eq_some_iff : (Step.ofToken? t = some s) ↔ s.DerivedFrom t := by
  constructor <;> intro h
  case mp  => cases t <;> cases h <;> constructor
  case mpr => cases h <;> rfl

theorem keyOfToken?_eq_some_iff {key : String} :
    (keyOfToken? t = some key) ↔ KeyDerivedFrom key t := by
  constructor <;> intro h
  case mp  => cases t <;> cases h <;> constructor
  case mpr => cases h <;> rfl

theorem Value.ofToken?_eq_some_iff {v : Value} : (Value.ofToken? t = some v) ↔ v.DerivedFrom t := by
  constructor <;> intro h
  case mp  =>
    cases t <;> cases h
    case star       => exact .star
    case identifier => exact .identifier _
    case quoted text =>
      split
      case isTrue h  => exact h ▸ .quotedStar
      case isFalse h => exact .quoted h
  case mpr =>
    cases h
    case quoted h => simp [Value.ofToken?, h]
    all_goals rfl

-- The tokens that lead to a place, the bar of the step included.
def Place.OpenedBy : Place → List Token → Prop
  | first .root,       ts => ts = [.slash]
  | first .anywhere,   ts => ts = [.doubleStar, .slash]
  | after alternative, ts => ∃ us, alternative.DerivedFrom us ∧ ts = us ++ [.slash]

theorem Place.OpenedBy.fill {segment : Segment} {ts us : List Token}
    (h : place.OpenedBy ts) (hs : segment.DerivedFrom us) :
    (place.fill segment).DerivedFrom (ts ++ us) := by
  match place with
  | first .root     => cases h; simpa [Place.fill] using Alternative.DerivedFrom.root hs .nil
  | first .anywhere => cases h; simpa [Place.fill] using Alternative.DerivedFrom.anywhere hs .nil
  | after a         =>
    have ⟨vs, hv, ht⟩ := h
    simpa [ht, Place.fill] using hv.concat hs

namespace Stage

-- The tokens from the brace of a filter up to the place of its next condition.
inductive ListOpenedBy : List Condition → List Token → Prop
  | first : ListOpenedBy [] [.openBrace]
  | next {cs ts} :
    ConditionsDerivedFrom cs ts → ListOpenedBy cs (.openBrace :: (ts ++ [.comma]))

-- The tokens that lead from the start of an alternative to a stage.
def ReachedBy : Stage → List Token → Prop
  | start,                ts => ts = []
  | stars,                ts => ts = [.doubleStar]
  | slash place,          ts => place.OpenedBy ts
  | step place s,         ts => ∃ us t, place.OpenedBy us ∧ s.DerivedFrom t ∧ ts = us ++ [t]
  | openBrace place s cs, ts =>
    ∃ us t vs, place.OpenedBy us ∧ s.DerivedFrom t ∧ ListOpenedBy cs vs ∧ ts = us ++ t :: vs
  | key place s cs k,     ts =>
    ∃ us t vs u, place.OpenedBy us ∧ s.DerivedFrom t ∧ ListOpenedBy cs vs ∧ KeyDerivedFrom k u ∧
      ts = us ++ t :: (vs ++ [u])
  | equals place s cs k,  ts =>
    ∃ us t vs u, place.OpenedBy us ∧ s.DerivedFrom t ∧ ListOpenedBy cs vs ∧ KeyDerivedFrom k u ∧
      ts = us ++ t :: (vs ++ [u, .equals])
  | value place s cs,     ts =>
    ∃ us t vs, place.OpenedBy us ∧ s.DerivedFrom t ∧ ConditionsDerivedFrom cs vs ∧
      ts = us ++ t :: .openBrace :: vs
  | closeBrace a,         ts => a.DerivedFrom ts

theorem ListOpenedBy.concat {c : Condition} {ts us : List Token}
    (h : ListOpenedBy cs ts) (hc : c.DerivedFrom us) :
    ∃ vs, ConditionsDerivedFrom (cs ++ [c]) vs ∧ ts ++ us = .openBrace :: vs := by
  cases h
  case first   => exact ⟨us, .one hc, rfl⟩
  case next hv => exact ⟨_, hv.concat hc, by simp⟩

theorem ReachedBy.shift {stage stage' : Stage} {ts : List Token}
    (h : stage.ReachedBy ts) (hs : stage.shift? t = some stage') :
    stage'.ReachedBy (ts ++ [t]) := by
  cases stage
  case start =>
    cases h
    cases t <;> cases hs <;> rfl
  case stars =>
    cases h
    cases t <;> cases hs
    rfl
  case slash place =>
    have ⟨s, hd, he⟩ := Option.map_eq_some_iff.mp hs
    exact he ▸ ⟨ts, t, h, Step.ofToken?_eq_some_iff.mp hd, rfl⟩
  case step place s =>
    have ⟨us, u, hp, hd, he⟩ := h
    cases t <;> cases hs
    case slash     => exact ⟨_, hp.fill <| .bare hd, by rw [he]⟩
    case openBrace => exact ⟨us, u, _, hp, hd, .first, by simp [he]⟩
  case openBrace place s cs =>
    have ⟨us, u, vs, hp, hd, hl, ht⟩ := h
    have ⟨k, hk, he⟩ := Option.map_eq_some_iff.mp hs
    exact he ▸ ⟨us, u, vs, t, hp, hd, hl, keyOfToken?_eq_some_iff.mp hk, by simp [ht]⟩
  case key place s cs k =>
    have ⟨us, u, vs, v, hp, hd, hl, hk, ht⟩ := h
    cases t <;> cases hs
    exact ⟨us, u, vs, v, hp, hd, hl, hk, by simp [ht]⟩
  case equals place s cs k =>
    have ⟨us, u, vs, v, hp, hd, hl, hk, ht⟩ := h
    have ⟨x, hx, he⟩ := Option.map_eq_some_iff.mp hs
    have ⟨ws, hw, hws⟩ := hl.concat <| .mk hk (Value.ofToken?_eq_some_iff.mp hx)
    exact he ▸ ⟨us, u, ws, hp, hd, hw, by simp [ht, ←hws]⟩
  case value place s cs =>
    have ⟨us, u, vs, hp, hd, hc, ht⟩ := h
    cases t <;> cases hs
    case comma      => exact ⟨us, u, _, hp, hd, .next hc, by simp [ht]⟩
    case closeBrace => simpa [ReachedBy, ht] using hp.fill <| .filtered hd <| .mk hc
  case closeBrace a =>
    cases t <;> cases hs
    exact ⟨ts, h, rfl⟩

theorem ReachedBy.run {stage stage' : Stage} {ts us : List Token}
    (h : stage.ReachedBy ts) (hr : us.foldlM shift? stage = some stage') :
    stage'.ReachedBy (ts ++ us) := by
  induction us generalizing stage ts
  case nil => cases hr; simpa using h
  case cons t us hi =>
    have ⟨_, hs, hr⟩ := Option.bind_eq_some_iff.mp hr
    simpa using hi (h.shift hs) hr

theorem ReachedBy.close {stage : Stage} {a : Alternative} {ts : List Token}
    (h : stage.ReachedBy ts) (hc : stage.close? = some a) : a.DerivedFrom ts := by
  cases stage <;> cases hc
  case step       =>
    have ⟨us, t, hp, hd, ht⟩ := h
    exact ht ▸ hp.fill (.bare hd)
  case closeBrace => exact h

end Stage

-- Conversely, the tokens of each production lead on from one stage to another.

variable {ts : List Token}

theorem Condition.DerivedFrom.run {c : Condition} (h : c.DerivedFrom ts) :
    ts.foldlM Stage.shift? (.openBrace place s cs) = some (.value place s (cs ++ [c])) := by
  cases h
  case mk hk hv =>
    simp [List.foldlM, Stage.shift?, keyOfToken?_eq_some_iff.mpr hk,
      Value.ofToken?_eq_some_iff.mpr hv]

theorem ConditionsDerivedFrom.run {cs' : List Condition} (h : ConditionsDerivedFrom cs' ts) :
    ts.foldlM Stage.shift? (.openBrace place s cs) = some (.value place s (cs ++ cs')) := by
  induction h generalizing cs
  case one hc => exact hc.run
  case more c cs' _ _ hc _ hi =>
    rw [List.foldlM_append, hc.run, Option.bind_eq_bind, Option.bind_some, List.foldlM_cons,
      List.append_cons cs c cs']
    exact hi

theorem Filter.DerivedFrom.run {f : Filter} (h : f.DerivedFrom ts) :
    ts.foldlM Stage.shift? (.step place s) = some (.closeBrace <| place.fill ⟨s, f⟩) := by
  cases h
  case mk cs ts hc =>
    have hr : ts.foldlM Stage.shift? (.openBrace place s []) = some (.value place s cs) := hc.run
    simp only [List.foldlM_cons, Stage.shift?, Option.bind_eq_bind, Option.bind_some,
      List.foldlM_append, hr]
    rfl

theorem Segment.DerivedFrom.run {segment : Segment} (h : segment.DerivedFrom ts) (place : Place) :
    ∃ stage, ts.foldlM Stage.shift? (.slash place) = some stage ∧
      stage.close? = some (place.fill segment) := by
  cases h
  case bare s _ hd =>
    refine ⟨.step place s, ?_, rfl⟩
    simp [List.foldlM, Stage.shift?, Step.ofToken?_eq_some_iff.mpr hd]
  case filtered s f _ _ hd hf =>
    refine ⟨.closeBrace <| place.fill ⟨s, f⟩, ?_, rfl⟩
    simp only [List.foldlM_cons, Stage.shift?, Step.ofToken?_eq_some_iff.mpr hd, Option.map_some,
      Option.bind_eq_bind, Option.bind_some]
    exact hf.run

theorem Stage.shift?_slash_of_close? {stage : Stage} {a : Alternative} (h : stage.close? = some a) :
    stage.shift? .slash = some (.slash <| .after a) := by
  cases stage <;> cases h <;> rfl

theorem PathDerivedFrom.run {path : List Segment} {stage : Stage} {a : Alternative}
    (h : PathDerivedFrom path ts) (hc : stage.close? = some a) :
    ∃ stage', ts.foldlM Stage.shift? stage = some stage' ∧
      stage'.close? = some { a with path := a.path ++ path } := by
  induction h generalizing stage a
  case nil => exact ⟨stage, rfl, by simpa using hc⟩
  case cons hs _ hi =>
    have ⟨stage₁, hr₁, hc₁⟩ := hs.run (.after a)
    have ⟨stage₂, hr₂, hc₂⟩ := hi hc₁
    refine ⟨stage₂, ?_, by simpa [Place.fill] using hc₂⟩
    simp only [List.foldlM_cons, Stage.shift?_slash_of_close? hc, List.foldlM_append,
      Option.bind_eq_bind, Option.bind_some, hr₁, hr₂]

theorem PathDerivedFrom.run_first {first : Segment} {path : List Segment} {us : List Token}
    (hf : first.DerivedFrom ts) (hp : PathDerivedFrom path us) (anchor : Anchor) :
    ∃ stage, (ts ++ us).foldlM Stage.shift? (.slash <| .first anchor) = some stage ∧
      stage.close? = some ⟨anchor, first, path⟩ := by
  have ⟨stage₁, hr₁, hc₁⟩ := hf.run (.first anchor)
  have ⟨stage₂, hr₂, hc₂⟩ := hp.run hc₁
  refine ⟨stage₂, ?_, by simpa [Place.fill] using hc₂⟩
  rw [List.foldlM_append, hr₁, Option.bind_eq_bind, Option.bind_some, hr₂]

theorem Alternative.DerivedFrom.run {a : Alternative} (h : a.DerivedFrom ts) :
    ∃ stage, ts.foldlM Stage.shift? .start = some stage ∧ stage.close? = some a := by
  cases h
  case root hf hp     => exact hp.run_first hf .root
  case anywhere hf hp => exact hp.run_first hf .anywhere

-- The stages accept exactly the grammar, and they build what the productions stand for.
theorem Alternative.derivedFrom_iff {a : Alternative} :
    a.DerivedFrom ts ↔
      ∃ stage, ts.foldlM Stage.shift? .start = some stage ∧ stage.close? = some a := by
  constructor <;> intro h
  case mp  => exact h.run
  case mpr =>
    have ⟨stage, hr, hc⟩ := h
    have hs : Stage.start.ReachedBy [] := rfl
    exact (hs.run hr).close hc

-- An alternative neither contains a bar nor is it empty, and no two words in it are adjacent.

theorem Stage.shift?_pipe {stage : Stage} : stage.shift? .pipe = none := by
  cases stage <;> rfl

theorem Stage.pipe_not_mem_of_run {stage stage' : Stage}
    (h : ts.foldlM shift? stage = some stage') : .pipe ∉ ts := by
  induction ts generalizing stage
  case nil => simp
  case cons t ts hi =>
    have ⟨_, hs, hr⟩ := Option.bind_eq_some_iff.mp h
    intro hp
    cases hp
    case head    => cases shift?_pipe.symm.trans hs
    case tail hp => exact hi hr hp

theorem Alternative.DerivedFrom.pipe_not_mem {a : Alternative} (h : a.DerivedFrom ts) :
    .pipe ∉ ts :=
  have ⟨_, hr, _⟩ := h.run
  Stage.pipe_not_mem_of_run hr

theorem Alternative.DerivedFrom.ne_nil {a : Alternative} (h : a.DerivedFrom ts) : ts ≠ [] := by
  cases h <;> simp

def Token.isDelimiter : Token → Bool
  | slash | pipe | openBrace | closeBrace | comma | equals => true
  | _                                                      => false

theorem Stage.isDelimiter_of_shift? {stage stage' stage'' : Stage} {t u : Token}
    (ht : stage.shift? t = some stage') (hu : stage'.shift? u = some stage'') :
    t.isDelimiter ∨ u.isDelimiter := by
  cases stage <;> cases t <;> cases ht <;> first | exact .inl rfl | skip
  all_goals cases u <;> cases hu <;> exact .inr rfl

theorem Stage.isChain_of_run {stage stage' : Stage} (h : ts.foldlM shift? stage = some stage') :
    ts.IsChain fun t u => t.isDelimiter ∨ u.isDelimiter := by
  induction ts generalizing stage
  case nil => exact .nil
  case cons t ts hi =>
    have ⟨_, hs, hr⟩ := Option.bind_eq_some_iff.mp h
    cases ts
    case nil => exact .singleton t
    case cons u ts =>
      have ⟨_, hs', _⟩ := Option.bind_eq_some_iff.mp hr
      exact .cons_cons (isDelimiter_of_shift? hs hs') (hi hr)

end TreeQuery
