import TreeQuery.Json.Number
import TreeQuery.Json.Text

namespace TreeQuery.Json

-- A reader reads one thing at the head of a text, which it shortens.
structure Reader (α : Type) where
  read        : List Char → Except Fault (α × List Char)
  length_read : ∀ {cs x rest}, read cs = .ok (x, rest) → rest.length < cs.length

-- What is wrong with a value that starts like nothing that is expected. Literals, numbers and texts
-- are read, arrays and objects are not.
def otherValue : List Char → Fault
  | []                    => .cutOff
  | '[' :: _ | '{' :: _   => .mismatch
  | '"' :: cs             => faultOf (readText cs)
  | 'n' :: cs             => faultOf (readWord ['u', 'l', 'l'] cs)
  | 't' :: cs             => faultOf (readWord ['r', 'u', 'e'] cs)
  | 'f' :: cs             => faultOf (readWord ['a', 'l', 's', 'e'] cs)
  | '-' :: cs             => Number.afterSign cs
  | c :: cs               => if isDigit c then Number.afterSign (c :: cs) else .malformed
where
  faultOf {α} : Except Fault α → Fault
    | .error f => f
    | .ok _    => .mismatch

-- Where an array or an object goes on: with one more item or behind its end.
inductive Continuation
  | item (cs : List Char)
  | done (rest : List Char)

-- Items are separated by commas, and no comma stands in front of the end.
def nextItem (close : Char) (isFirst : Bool) (cs : List Char) : Except Fault Continuation :=
  match skipBlanks cs with
  | []        => .error .cutOff
  | c :: rest =>
    if c = close then
      .ok (.done rest)
    else if isFirst then
      .ok (.item (c :: rest))
    else if c = ',' then
      match skipBlanks rest with
      | []         => .error .cutOff
      | d :: rest' => if d = close then .error .malformed else .ok (.item (d :: rest'))
    else
      .error .malformed

theorem length_le_of_nextItem_eq_item {close isFirst cs cs'}
    (h : nextItem close isFirst cs = .ok (.item cs')) : cs'.length ≤ cs.length := by
  have hl := length_skipBlanks_le cs
  unfold nextItem at h
  split at h
  case h_1 => contradiction
  case h_2 c rest hs =>
    rw [hs] at hl
    split at h
    case isTrue => cases h
    case isFalse =>
      split at h
      case isTrue => cases h; exact hl
      case isFalse =>
        split at h
        case isFalse => contradiction
        case isTrue =>
          have hr := length_skipBlanks_le rest
          split at h
          case h_1 => contradiction
          case h_2 hd =>
            rw [hd] at hr
            split at h
            case isTrue => contradiction
            case isFalse =>
              cases h
              simp at hl hr ⊢
              omega

theorem length_lt_of_nextItem_eq_done {close isFirst cs rest}
    (h : nextItem close isFirst cs = .ok (.done rest)) : rest.length < cs.length := by
  have hl := length_skipBlanks_le cs
  unfold nextItem at h
  split at h
  case h_1 => contradiction
  case h_2 c _ hs =>
    rw [hs] at hl
    split at h
    case isTrue => cases h; simp at hl; omega
    case isFalse =>
      split at h
      case isTrue => cases h
      case isFalse =>
        split at h
        case isFalse => contradiction
        case isTrue =>
          split at h
          case h_1 => contradiction
          case h_2 => split at h <;> cases h

namespace Reader

def fail (f : Fault) : Reader α where
  read _ := .error f
  length_read h := by contradiction

def map (g : α → β) (r : Reader α) : Reader β where
  read cs := (r.read cs).map fun (x, rest) => (g x, rest)
  length_read h := by
    simp only [Except.map] at h
    split at h <;> cases h
    exact r.length_read ‹_›

def bind (r : Reader α) (next : α → Reader β) : Reader β where
  read cs := do
    let (x, rest) ← r.read cs
    (next x).read rest
  length_read {cs x rest} h := by
    cases hr : r.read cs <;> simp only [hr, Bind.bind, Except.bind] at h
    case error => contradiction
    case ok => exact Nat.lt_trans ((next _).length_read h) (r.length_read hr)

-- Skips the blanks in front of what is read.
def afterBlanks (read : List Char → Except Fault (α × List Char))
    (length_read : ∀ {cs x rest}, read cs = .ok (x, rest) → rest.length < cs.length) :
    Reader α where
  read cs := read (skipBlanks cs)
  length_read h := Nat.lt_of_lt_of_le (length_read h) (length_skipBlanks_le _)

def readQuoted : List Char → Except Fault (String × List Char)
  | '"' :: cs => (readText cs).map fun (text, rest) => (String.ofList text, rest)
  | cs        => .error (otherValue cs)

theorem length_lt_of_readQuoted {cs s rest} (h : readQuoted cs = .ok (s, rest)) :
    rest.length < cs.length := by
  unfold readQuoted at h
  split at h
  case h_1 =>
    simp only [Except.map] at h
    split at h <;> cases h
    have := length_lt_of_readText ‹_›
    simp
    omega
  case h_2 => contradiction

def text : Reader String :=
  afterBlanks readQuoted length_lt_of_readQuoted

def readNullable : List Char → Except Fault (Option String × List Char)
  | 'n' :: cs => (readWord ['u', 'l', 'l'] cs).map (none, ·)
  | cs        => (readQuoted cs).map fun (s, rest) => (some s, rest)

theorem length_lt_of_readNullable {cs s rest} (h : readNullable cs = .ok (s, rest)) :
    rest.length < cs.length := by
  unfold readNullable at h
  split at h <;> simp only [Except.map] at h
  case h_1 =>
    split at h <;> cases h
    have := length_le_of_readWord ‹_›
    simp
    omega
  case h_2 =>
    split at h <;> cases h
    exact length_lt_of_readQuoted ‹_›

-- A text or `null`.
def nullableText : Reader (Option String) :=
  afterBlanks readNullable length_lt_of_readNullable

-- The key of a field of an object.
def key : Reader String where
  read
    | '"' :: cs => readQuoted ('"' :: cs)
    | _         => .error .malformed
  length_read {cs x rest} h := by
    split at h
    case h_1 => exact length_lt_of_readQuoted h
    case h_2 => contradiction

def readColon : List Char → Except Fault (Unit × List Char)
  | []        => .error .cutOff
  | ':' :: cs => .ok ((), cs)
  | _         => .error .malformed

def colon : Reader Unit :=
  afterBlanks readColon <| by
    intro cs x rest h
    unfold readColon at h
    split at h <;> cases h
    simp

-- Reads items up to the end of an array or an object. What is read so far decides how the next item
-- is read.
def readItems (close : Char) (item : σ → Reader σ) (isFirst : Bool) (s : σ) (cs : List Char) :
    Except Fault (σ × List Char) :=
  match _hn : nextItem close isFirst cs with
  | .error f         => .error f
  | .ok (.done rest) => .ok (s, rest)
  | .ok (.item cs')  =>
    match _hr : (item s).read cs' with
    | .error f       => .error f
    | .ok (s', rest) => readItems close item false s' rest
termination_by cs.length
decreasing_by
  have := length_le_of_nextItem_eq_item _hn
  have := (item s).length_read _hr
  omega

theorem length_lt_of_readItems {close} {item : σ → Reader σ} {isFirst s cs s' rest}
    (h : readItems close item isFirst s cs = .ok (s', rest)) : rest.length < cs.length := by
  fun_induction readItems close item isFirst s cs
  case case1 => contradiction
  case case2 hn => cases h; exact length_lt_of_nextItem_eq_done hn
  case case3 => contradiction
  case case4 hn _ _ hr hi =>
    have := length_le_of_nextItem_eq_item hn
    have := Reader.length_read _ hr
    have := hi h
    omega

def readContainer (opening close : Char) (isTooDeep : Bool) (item : σ → Reader σ) (s : σ) :
    List Char → Except Fault (σ × List Char)
  | []      => .error .cutOff
  | c :: cs =>
    if c = opening then
      if isTooDeep then .error .malformed else readItems close item true s cs
    else
      .error (otherValue (c :: cs))

-- Reads an array or an object, unless arrays and objects are nested too deeply already.
def container (opening close : Char) (isTooDeep : Bool) (item : σ → Reader σ) (s : σ) : Reader σ :=
  afterBlanks (readContainer opening close isTooDeep item s) <| by
    intro cs s' rest h
    unfold readContainer at h
    split at h
    case h_1 => contradiction
    case h_2 =>
      split at h
      case isFalse => contradiction
      case isTrue =>
        split at h
        case isTrue => contradiction
        case isFalse => exact Nat.lt_succ_of_lt (length_lt_of_readItems h)

end Reader
end TreeQuery.Json
