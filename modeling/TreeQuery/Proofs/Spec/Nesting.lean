import TreeQuery.Proofs.Spec.Reading

namespace TreeQuery

namespace Json

variable {α β σ : Type} {r r' : Reader α}

-- Texts are read as by the second reader, or refused as malformed.
def Stricter (read read' : List Char → Except Fault (α × List Char)) : Prop :=
  ∀ cs, read cs = read' cs ∨ read cs = .error .malformed

theorem readItems_of_nextItem_eq_error {close : Char} {isFirst : Bool} {cs : List Char} {f : Fault}
    {item : σ → Reader σ} {s : σ} (h : nextItem close isFirst cs = .error f) :
    Reader.readItems close item isFirst s cs = .error f := by
  rw [Reader.readItems]
  split <;> simp_all

namespace Stricter

variable {read read' read'' : List Char → Except Fault (α × List Char)}

theorem refl : Stricter read read :=
  fun _ => .inl rfl

theorem trans (h : Stricter read read') (h' : Stricter read' read'') : Stricter read read'' := by
  intro cs
  rcases h cs with hr | hr
  case inl => exact hr ▸ h' cs
  case inr => exact .inr hr

theorem fail : Stricter (Reader.fail .malformed).read read :=
  fun _ => .inr rfl

theorem map (h : Stricter r.read r'.read) (g : α → β) :
    Stricter (r.map g).read (r'.map g).read := by
  intro cs
  rcases h cs with hr | hr
  case inl => exact .inl <| by simp only [Reader.map, hr]
  case inr => exact .inr <| by simp only [Reader.map, hr, Except.map]

theorem bind {next next' : α → Reader β} (h : ∀ x, Stricter (next x).read (next' x).read) :
    Stricter (r.bind next).read (r.bind next').read := by
  intro cs
  cases hr : r.read cs
  case error => exact .inl <| by simp only [Reader.bind, hr, Bind.bind, Except.bind]
  case ok    =>
    simp only [Reader.bind, hr, Bind.bind, Except.bind]
    exact h _ _

-- What is done with the result changes nothing.
theorem before {γ : Type} (h : Stricter read read') (next : α × List Char → Except Fault γ)
    (cs : List Char) : (read cs).bind next = (read' cs).bind next ∨
      (read cs).bind next = .error .malformed := by
  rcases h cs with hr | hr
  case inl => exact .inl <| by rw [hr]
  case inr => exact .inr <| by rw [hr]; rfl

theorem afterBlanks (h : Stricter read read') {hl hl'} :
    Stricter (Reader.afterBlanks read hl).read (Reader.afterBlanks read' hl').read :=
  fun cs => h (skipBlanks cs)

variable {item item' : σ → Reader σ}

theorem readItems {close : Char} (h : ∀ s, Stricter (item s).read (item' s).read) {isFirst : Bool}
    {s : σ} :
    Stricter (Reader.readItems close item isFirst s) (Reader.readItems close item' isFirst s) := by
  intro cs
  induction isFirst, s, cs using Reader.readItems.induct close item
  case case1 hn =>
    rw [readItems_of_nextItem_eq_error hn, readItems_of_nextItem_eq_error hn]
    exact .inl rfl
  case case2 hn =>
    rw [readItems_of_nextItem_eq_done hn, readItems_of_nextItem_eq_done hn]
    exact .inl rfl
  case case3 s _ cs' hn _ hr =>
    rw [readItems_of_nextItem_eq_item hn, readItems_of_nextItem_eq_item hn, hr]
    rcases h s cs' with he | he
    case inl => exact .inl <| by rw [←he, hr]; rfl
    case inr => exact .inr <| by rw [←hr, he]; rfl
  case case4 s _ cs' hn _ _ hr hi =>
    rw [readItems_of_nextItem_eq_item hn, readItems_of_nextItem_eq_item hn, hr]
    rcases h s cs' with he | he
    case inl => rw [←he, hr]; exact hi
    case inr => simp [hr] at he

theorem readContainer {opening close : Char} (h : ∀ s, Stricter (item s).read (item' s).read)
    {isTooDeep isTooDeep' : Bool} (hd : isTooDeep' → isTooDeep) {s : σ} :
    Stricter (Reader.readContainer opening close isTooDeep item s)
      (Reader.readContainer opening close isTooDeep' item' s) := by
  intro cs
  unfold Reader.readContainer
  split
  case h_1 => exact .inl rfl
  case h_2 =>
    split
    case isFalse => exact .inl rfl
    case isTrue  =>
      cases isTooDeep <;> cases isTooDeep' <;> simp at hd ⊢
      exact readItems h _

theorem container {opening close : Char} (h : ∀ s, Stricter (item s).read (item' s).read)
    {isTooDeep isTooDeep' : Bool} (hd : isTooDeep' → isTooDeep) {s : σ} :
    Stricter (Reader.container opening close isTooDeep item s).read
      (Reader.container opening close isTooDeep' item' s).read :=
  (readContainer h hd).afterBlanks

end Stricter
end Json

namespace Spec

open Json

section

variable {attributes attributes' : Reader Attributes} {children children' : Reader (List Spec)}
variable (ha : Stricter attributes.read attributes'.read)
variable (hc : Stricter children.read children'.read)
include ha hc

end

end Spec
end TreeQuery
