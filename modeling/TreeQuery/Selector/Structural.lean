import TreeQuery.Text.Numeral
import TreeQuery.Text.DecimalDigit
import TreeQuery.SelectorError
import TreeQuery.Selector.Token
import TreeQuery.Selector.Escape

/-!
# Structural positions as they are spelled

`:first-child`, `:nth-last-of-type(2n+1)` and their relatives. Keywords are read in any letter
case. A position that counts needs an argument `even`, `odd` or `an+b`, and one that does not count
must have none.
-/

namespace TreeQuery

/-- The letter that a keyword is compared by; the long s counts as an s. -/
def foldedLetter (c : Char) : Char :=
  if c = 'ſ' then 's' else c.toLower

/-- The text after a keyword, in any letter case. -/
def afterKeyword? : List Char → List Char → Option (List Char)
  | [], text => some text
  | _ :: _, [] => none
  | k :: keyword, c :: text => if foldedLetter c = k then afterKeyword? keyword text else none

/-- The keywords of the positions, in the order in which they are tried. -/
def Position.keywords : List (List Char × Position) :=
  [(['o', 'n', 'l', 'y'], .only), (['f', 'i', 'r', 's', 't'], .first),
    (['l', 'a', 's', 't'], .last), (['n', 't', 'h'], .nth),
    (['n', 't', 'h', '-', 'l', 'a', 's', 't'], .nthLast)]

/-- The position that a spelling names. The spelling must agree with the keyword in ASCII letters;
one with a long s is read as the last position of the table. -/
def Position.ofSpelling (keyword : List Char × Position) (spelled : List Char) : Position :=
  if spelled.map Char.toLower = keyword.1 then keyword.2 else .nthLast

/-- Whether siblings of the same tag are counted, and the text after the word that says so. -/
def siblingKind? (text : List Char) : Option (Bool × List Char) :=
  match afterKeyword? ['-', 'c', 'h', 'i', 'l', 'd'] text with
  | some rest => some (false, rest)
  | none =>
    (afterKeyword? ['-', 'o', 'f', '-', 't', 'y', 'p', 'e'] text).map fun rest => (true, rest)

/-- The name of a structural position: the position, whether siblings of the same tag are counted,
and the text after it. -/
def structuralName? (text : List Char) : Option ((Position × Bool) × List Char) :=
  Position.keywords.findSome? fun keyword => do
    let after ← afterKeyword? keyword.1 text
    let (ofType, rest) ← siblingKind? after
    return ((.ofSpelling keyword (text.take keyword.1.length), ofType), rest)

/-- An argument as it is spelled: signs and digits are not resolved yet. -/
inductive Formula where
  | even
  | odd
  /-- The part before `n` and the part after it, each with its sign. -/
  | linear (step : Option (Bool × List Char)) (offset : Option (Bool × List Char))
  deriving Repr, DecidableEq

/-- Whether a minus sign stands here, and the text after the sign if there is one. -/
def splitSign : List Char → Bool × List Char
  | '-' :: text => (true, text)
  | '+' :: text => (false, text)
  | text => (false, text)

/-- A sign, digits and the letter `n`. -/
def step? (text : List Char) : Option ((Bool × List Char) × List Char) :=
  let (negative, text) := splitSign text
  match text.dropWhile isDecimalDigit with
  | c :: rest =>
    if foldedLetter c = 'n' then some ((negative, text.takeWhile isDecimalDigit), rest) else none
  | [] => none

/-- A sign, blanks and at least one digit. -/
def offset? (text : List Char) : Option ((Bool × List Char) × List Char) :=
  let (negative, text) := splitSign text
  let text := dropBlanks text
  match text.takeWhile isDecimalDigit with
  | [] => none
  | digits => some ((negative, digits), text.dropWhile isDecimalDigit)

def closeParenthesis? (text : List Char) : Option (List Char) :=
  match dropBlanks text with
  | ')' :: rest => some rest
  | _ => none

def linear (text : List Char) : Formula × List Char :=
  let (step, text) := match step? text with
    | some (step, rest) => (some step, rest)
    | none => (none, text)
  let text := dropBlanks text
  match offset? text with
  | some (offset, rest) => (.linear step (some offset), rest)
  | none => (.linear step none, text)

def formula? : List Char → Option (Formula × List Char)
  | '(' :: text =>
    let text := dropBlanks text
    let keyword (word : List Char) (formula : Formula) : Option (Formula × List Char) := do
      let after ← afterKeyword? word text
      let rest ← closeParenthesis? after
      return (formula, rest)
    (keyword ['e', 'v', 'e', 'n'] .even).or <| (keyword ['o', 'd', 'd'] .odd).or <|
      let (formula, after) := linear text
      (closeParenthesis? after).map fun rest => (formula, rest)
  | _ => none

/-- The number that a sign and digits stand for. Digits must be ASCII and within signed 64 bits. -/
def signedDigits? (negative : Bool) (digits : List Char) : Option Int :=
  ((decimal? digits).filter fun n => (n : Int) ≤ maxSigned).map fun n =>
    if negative then -(n : Int) else n

/-- The coefficients of an argument. A missing number before `n` is one; a missing part is zero. -/
def Formula.coefficients? : Formula → Option (Int × Int)
  | .even => some (2, 0)
  | .odd => some (2, 1)
  | .linear step offset => do
    let a ← match step with
      | none => some 0
      | some (negative, []) => some (if negative then -1 else 1)
      | some (negative, digits) => signedDigits? negative digits
    let b ← match offset with
      | none => some 0
      | some (negative, digits) => signedDigits? negative digits
    return (a, b)

/-- The position that a name and an argument stand for; `raw` is the text of both. -/
def StructuralPosition.resolve (raw : String) (position : Position) (ofType : Bool) :
    Option Formula → Except SelectorError StructuralPosition
  | none =>
    if position = .nth ∨ position = .nthLast then .error (.missingArgument raw)
    else .ok ⟨position, ofType, 0, 0⟩
  | some formula =>
    if position = .nth ∨ position = .nthLast then
      match formula.coefficients? with
      | some (a, b) => .ok ⟨position, ofType, a, b⟩
      | none => .error (.unrecognized raw)
    else .error (.unrecognized raw)

def continuesIdentifier (c : Char) : Bool :=
  isWordChar c || c == '\\' || !isAscii c

/-- What stands before `rest` in a text that ends with it. -/
def before (text rest : List Char) : List Char :=
  text.take (text.length - rest.length)

/-- A structural position at the start of a text. The name of another pseudo-class may begin like
one; then there is none here. -/
def structural? : List Char → Option (Except SelectorError StructuralPosition × List Char)
  | ':' :: text => do
    let ((position, ofType), after) ← structuralName? text
    let (formula, rest) := match formula? after with
      | some (formula, rest) => (some formula, rest)
      | none => (none, after)
    if rest.head?.any continuesIdentifier then none
    else
      let raw := String.ofList (':' :: before text rest)
      return (StructuralPosition.resolve raw position ofType formula, rest)
  | _ => none

theorem afterKeyword?_suffix {keyword text rest : List Char}
    (h : afterKeyword? keyword text = some rest) : rest <:+ text := by
  fun_induction afterKeyword? keyword text with
  | case1 => simp at h; exact h ▸ List.suffix_refl _
  | case2 => simp at h
  | case3 keyword c text ih => exact (ih h).trans ⟨[c], rfl⟩
  | case4 => simp at h

theorem siblingKind?_suffix {text rest : List Char} {ofType : Bool}
    (h : siblingKind? text = some (ofType, rest)) : rest <:+ text := by
  unfold siblingKind? at h
  split at h
  · rename_i after heq
    simp at h
    exact h.2 ▸ afterKeyword?_suffix heq
  · simp only [Option.map_eq_some_iff, Prod.mk.injEq] at h
    obtain ⟨after, heq, -, rfl⟩ := h
    exact afterKeyword?_suffix heq

theorem structuralName?_suffix {text rest : List Char} {name : Position × Bool}
    (h : structuralName? text = some (name, rest)) : rest <:+ text := by
  obtain ⟨keyword, -, hk⟩ := List.exists_of_findSome?_eq_some h
  simp only [Option.bind_eq_bind, Option.bind_eq_some_iff, Option.pure_def, Option.some.injEq,
    Prod.mk.injEq, Prod.exists] at hk
  obtain ⟨after, hafter, _, _, hkind, -, rfl⟩ := hk
  exact (siblingKind?_suffix hkind).trans (afterKeyword?_suffix hafter)

theorem splitSign_suffix (text : List Char) : (splitSign text).2 <:+ text := by
  unfold splitSign
  split
  · exact ⟨['-'], rfl⟩
  · exact ⟨['+'], rfl⟩
  · exact List.suffix_refl _

theorem step?_suffix {text rest : List Char} {step : Bool × List Char}
    (h : step? text = some (step, rest)) : rest <:+ text := by
  unfold step? at h
  simp only at h
  split at h
  · rename_i c after heq
    split at h
    · simp at h
      obtain ⟨-, rfl⟩ := h
      have hafter : after <:+ (splitSign text).2.dropWhile isDecimalDigit := by
        rw [heq]; exact ⟨[c], rfl⟩
      exact hafter.trans ((List.dropWhile_suffix _).trans (splitSign_suffix text))
    · simp at h
  · simp at h

theorem offset?_suffix {text rest : List Char} {offset : Bool × List Char}
    (h : offset? text = some (offset, rest)) : rest <:+ text := by
  unfold offset? at h
  simp only at h
  split at h
  · simp at h
  · simp at h
    obtain ⟨-, rfl⟩ := h
    exact (List.dropWhile_suffix _).trans ((dropBlanks_suffix _).trans (splitSign_suffix text))

theorem closeParenthesis?_suffix {text rest : List Char} (h : closeParenthesis? text = some rest) :
    rest <:+ text := by
  unfold closeParenthesis? at h
  split at h
  · rename_i after heq
    simp at h
    subst h
    exact (show after <:+ dropBlanks text by rw [heq]; exact ⟨[')'], rfl⟩).trans
      (dropBlanks_suffix text)
  · simp at h

theorem linear_suffix (text : List Char) : (linear text).2 <:+ text := by
  unfold linear
  have hstep : (match step? text with
      | some (step, rest) => (some step, rest)
      | none => (none, text)).2 <:+ text := by
    cases h : step? text with
    | none => exact List.suffix_refl _
    | some found => exact step?_suffix h
  generalize (match step? text with
      | some (step, rest) => (some step, rest)
      | none => (none, text)) = found at hstep
  have hblank := (dropBlanks_suffix found.2).trans hstep
  simp only
  cases h : offset? (dropBlanks found.2) with
  | none => exact hblank
  | some offset => exact (offset?_suffix h).trans hblank

theorem formula?_suffix {text rest : List Char} {formula : Formula}
    (h : formula? text = some (formula, rest)) : rest <:+ text := by
  unfold formula? at h
  split at h
  · rename_i inner
    simp only [Option.or_eq_some_iff, Option.bind_eq_bind, Option.bind_eq_some_iff, Option.pure_def,
      Option.some.injEq, Prod.mk.injEq, Option.map_eq_some_iff] at h
    have hinner : dropBlanks inner <:+ '(' :: inner :=
      (dropBlanks_suffix inner).trans ⟨['('], rfl⟩
    obtain ⟨after, ha, _, hc, -, rfl⟩ | ⟨-, ⟨after, ha, _, hc, -, rfl⟩ | ⟨-, _, hc, -, rfl⟩⟩ := h
    · exact (closeParenthesis?_suffix hc).trans ((afterKeyword?_suffix ha).trans hinner)
    · exact (closeParenthesis?_suffix hc).trans ((afterKeyword?_suffix ha).trans hinner)
    · exact (closeParenthesis?_suffix hc).trans ((linear_suffix _).trans hinner)
  · simp at h

theorem structural?_suffix {text rest : List Char}
    {found : Except SelectorError StructuralPosition} (h : structural? text = some (found, rest)) :
    ∃ inner, text = ':' :: inner ∧ rest <:+ inner := by
  unfold structural? at h
  split at h
  · rename_i inner
    refine ⟨inner, rfl, ?_⟩
    simp only [Option.bind_eq_bind, Option.bind_eq_some_iff, Prod.exists] at h
    obtain ⟨_, _, after, hname, h⟩ := h
    have hafter := structuralName?_suffix hname
    cases hf : formula? after with
    | none =>
      simp only [hf] at h
      split at h
      · simp at h
      · simp at h
        exact h.2 ▸ hafter
    | some formula =>
      simp only [hf] at h
      split at h
      · simp at h
      · simp at h
        exact h.2 ▸ (formula?_suffix hf).trans hafter
  · simp at h

end TreeQuery
