import TreeQuery.Selector.Bracket
import TreeQuery.Selector.Structural

/-!
# Lexemes

What can stand at the start of a selector text: a separator of clauses, a combinator, or one simple
test. The only lexeme whose end is not settled by its own characters is a pseudo-class with an
argument that may hold selectors: its argument is taken up to the last parenthesis of the line
first, and `Lexeme.nested` leaves it to the scan to say where the argument really ends.
-/

namespace TreeQuery

/-- The text after a comma and the blanks around it. -/
def separator? (text : List Char) : Option (List Char) :=
  match dropBlanks text with
  | ',' :: rest => some (dropBlanks rest)
  | _ => none

/-- A combinator with the blanks around it; blanks alone are one too. -/
def combinator? (text : List Char) : Option (Combinator × List Char) :=
  match dropBlanks text with
  | '>' :: rest => some (.child, dropBlanks rest)
  | '+' :: rest => some (.adjacent, dropBlanks rest)
  | '~' :: rest => some (.sibling, dropBlanks rest)
  | rest => if rest.length < text.length then some (.descendant, rest) else none

/-- Text without brackets and parentheses, except escaped ones and those of attribute tests, and the
text after it. -/
def splitPlain (text : List Char) : List Char × List Char :=
  match text with
  | [] => ([], [])
  | '[' :: inner =>
    match _h : attributeTest? ('[' :: inner) with
    | some (_, rest) =>
      let (more, after) := splitPlain rest
      (before ('[' :: inner) rest ++ more, after)
    | none => ([], '[' :: inner)
  | ['\\'] => ([], ['\\'])
  | '\\' :: c :: rest =>
    if c = '\n' then ([], '\\' :: c :: rest)
    else
      let (more, after) := splitPlain rest
      ('\\' :: c :: more, after)
  | c :: rest =>
    if c = '(' || c = ')' || c = ']' then ([], c :: rest)
    else
      let (more, after) := splitPlain rest
      (c :: more, after)
termination_by text.length
decreasing_by
  · obtain ⟨inner', heq, hsuffix⟩ := attributeTest?_suffix _h
    obtain ⟨-, rfl⟩ := List.cons.inj heq
    have := hsuffix.length_le
    simp only [List.length_cons]
    omega
  · simp only [List.length_cons]
    omega
  · simp only [List.length_cons]
    omega

/-- The text before the last closing parenthesis and the text after it. -/
def splitLastParenthesis? : List Char → Option (List Char × List Char)
  | [] => none
  | c :: text =>
    match splitLastParenthesis? text with
    | some (inner, rest) => some (c :: inner, rest)
    | none => if c = ')' then some ([], text) else none

/-- An argument as it is first read. -/
inductive Argument where
  | absent
  | quoted (body : List Char)
  /-- Free of nested parentheses. -/
  | plain (text : List Char)
  /-- Everything up to the last parenthesis of the line. -/
  | line (text : List Char)
  deriving Repr, DecidableEq

def quotedArgument? (text : List Char) : Option (Argument × List Char) :=
  let body := match text with
    | '\'' :: inner => quotedBody? '\'' inner
    | '"' :: inner => quotedBody? '"' inner
    | _ => none
  match body with
  | some (body, ')' :: rest) => some (.quoted body, rest)
  | _ => none

def plainArgument? (text : List Char) : Option (Argument × List Char) :=
  match splitPlain text with
  | (plain, ')' :: rest) => some (.plain plain, rest)
  | _ => none

def lineArgument? (text : List Char) : Option (Argument × List Char) :=
  (splitLastParenthesis? (text.takeWhile (· != '\n'))).map fun (inner, rest) =>
    (.line inner, rest ++ text.dropWhile (· != '\n'))

/-- The argument after the name of a pseudo-class and the text after it. A parenthesis that is not
closed on its line belongs to no argument. -/
def splitArgument : List Char → Argument × List Char
  | '(' :: text =>
    (((quotedArgument? text).or (plainArgument? text)).or (lineArgument? text)).getD
      (.absent, '(' :: text)
  | text => (.absent, text)

/-- Whether a pseudo-class may begin somewhere in a text. -/
def mentionsPseudo : List Char → Bool
  | [] => false
  | c :: text => (c == ':' && (identifierUnit? text).isSome) || mentionsPseudo text

inductive Lexeme where
  /-- A comma between two clauses. -/
  | separator (rest : List Char)
  | token (value : TokenValue) (rest : List Char)
  /-- A pseudo-class with an argument that mentions pseudo-classes. The text is `head`, then the
  argument, then a closing parenthesis, then `rest`. -/
  | nested (name : String) (head argument rest : List Char)
  | fault (error : SelectorError)
  | unknown

def pseudo? : List Char → Option Lexeme
  | ':' :: text => do
    let (spelled, after) ← identifier? text
    let name := (String.ofList (unescape spelled)).toLower
    match splitArgument after with
    | (.absent, rest) => return .token (.pseudo ⟨name, none, false⟩) rest
    | (.quoted body, rest) => return .token (.pseudo ⟨name, some (String.ofList body), true⟩) rest
    | (.plain argument, rest) =>
      return .token (.pseudo ⟨name, some (String.ofList argument), false⟩) rest
    | (.line argument, rest) =>
      if mentionsPseudo argument then
        return .nested name (':' :: spelled ++ ['(']) argument rest
      else return .token (.pseudo ⟨name, some (String.ofList argument), false⟩) rest
  | _ => none

def simpleTest : List Char → Lexeme
  | [] => .unknown
  | c :: text =>
    if c = '*' then .token (.tag "*") text
    else if c = '#' then
      match identifier? text with
      | some (name, rest) => .token (.id (String.ofList (unescape name))) rest
      | none => .unknown
    else if c = '.' then
      match identifier? text with
      | some (name, rest) => .token (.className (String.ofList (unescape name))) rest
      | none => .unknown
    else if c = '[' then
      match attributeTest? (c :: text) with
      | some (test, rest) => .token (.attribute test) rest
      | none => .unknown
    else if c = ':' then
      match structural? (c :: text) with
      | some (.ok position, rest) => .token (.structural position) rest
      | some (.error e, _) => .fault e
      | none => (pseudo? (c :: text)).getD .unknown
    else
      match identifier? (c :: text) with
      | some (name, rest) => .token (.tag (String.ofList (unescape name))) rest
      | none => .unknown

/-- The first lexeme of a text. A comma separates clauses only after a token and before more
text. -/
def Lexeme.next (afterToken : Bool) (text : List Char) : Lexeme :=
  match if afterToken then separator? text else none with
  | some [] => .unknown
  | some rest => .separator rest
  | none =>
    match combinator? text with
    | some (c, rest) => .token (.combinator c) rest
    | none => simpleTest text

/-- How a lexeme and the text it was read from fit together. -/
def Lexeme.Splits (text : List Char) : Lexeme → Prop
  | .separator rest => ∃ gap, text = gap ++ rest ∧ gap ≠ []
  | .token _ rest => ∃ raw, text = raw ++ rest ∧ raw ≠ []
  | .nested _ head argument rest => text = head ++ argument ++ ')' :: rest ∧ head ≠ []
  | .fault _ => True
  | .unknown => True

theorem exists_raw_of_suffix {c : Char} {text rest : List Char} (h : rest <:+ text) :
    ∃ raw, c :: text = raw ++ rest ∧ raw ≠ [] := by
  obtain ⟨raw, rfl⟩ := h
  exact ⟨c :: raw, rfl, by simp⟩

theorem separator?_splits {text rest : List Char} (h : separator? text = some rest) :
    ∃ gap, text = gap ++ rest ∧ gap ≠ [] := by
  unfold separator? at h
  split at h
  · rename_i after heq
    simp at h
    subst h
    obtain ⟨blanks, hb⟩ := dropBlanks_suffix text
    obtain ⟨more, hm⟩ := dropBlanks_suffix after
    exact ⟨blanks ++ ',' :: more, by simp [hm, ← heq, hb], by simp⟩
  · simp at h

theorem combinator?_splits {text rest : List Char} {c : Combinator}
    (h : combinator? text = some (c, rest)) : ∃ raw, text = raw ++ rest ∧ raw ≠ [] := by
  obtain ⟨blanks, hb⟩ := dropBlanks_suffix text
  have signed : ∀ {sign : Char} {after : List Char}, dropBlanks text = sign :: after →
      ∃ raw, text = raw ++ dropBlanks after ∧ raw ≠ [] := by
    intro sign after heq
    obtain ⟨more, hm⟩ := dropBlanks_suffix after
    exact ⟨blanks ++ sign :: more, by simp [hm, ← heq, hb], by simp⟩
  unfold combinator? at h
  split at h
  · simp at h; exact h.2 ▸ signed ‹_›
  · simp at h; exact h.2 ▸ signed ‹_›
  · simp at h; exact h.2 ▸ signed ‹_›
  · split at h
    · rename_i hlt
      simp at h
      obtain ⟨-, rfl⟩ := h
      refine ⟨blanks, hb.symm, ?_⟩
      rintro rfl
      rw [List.nil_append] at hb
      rw [hb] at hlt
      exact Nat.lt_irrefl _ hlt
    · simp at h

theorem before_append {text rest : List Char} (h : rest <:+ text) :
    before text rest ++ rest = text := by
  obtain ⟨raw, rfl⟩ := h
  simp [before]

theorem splitPlain_append (text : List Char) :
    (splitPlain text).1 ++ (splitPlain text).2 = text := by
  fun_induction splitPlain text with
  | case1 => rfl
  | case2 inner test rest h more after heq ih =>
    rw [heq] at ih
    obtain ⟨inner', hinner, hsuffix⟩ := attributeTest?_suffix h
    obtain ⟨-, rfl⟩ := List.cons.inj hinner
    rw [List.append_assoc, ih]
    exact before_append (hsuffix.trans (List.suffix_cons _ _))
  | case3 => rfl
  | case4 => rfl
  | case5 => rfl
  | case6 c rest hc more after heq ih =>
    rw [heq] at ih
    simpa using ih
  | case7 => rfl
  | case8 c rest _ _ _ hc more after heq ih =>
    rw [heq] at ih
    simpa using ih

theorem splitLastParenthesis?_append {text inner rest : List Char}
    (h : splitLastParenthesis? text = some (inner, rest)) : text = inner ++ ')' :: rest := by
  induction text generalizing inner with
  | nil => simp [splitLastParenthesis?] at h
  | cons c text ih =>
    simp only [splitLastParenthesis?] at h
    split at h
    · rename_i inner' rest' heq
      simp at h
      obtain ⟨rfl, rfl⟩ := h
      simp [ih heq]
    · split at h
      · simp at h
        obtain ⟨rfl, rfl⟩ := h
        simp [*]
      · simp at h

theorem quotedArgument?_splits {text rest : List Char} {argument : Argument}
    (h : quotedArgument? text = some (argument, rest)) :
    (∃ body, argument = .quoted body) ∧ rest <:+ text := by
  unfold quotedArgument? at h
  simp only at h
  split at h
  · rename_i body after heq
    simp at h
    obtain ⟨rfl, rfl⟩ := h
    refine ⟨⟨body, rfl⟩, ?_⟩
    split at heq
    · exact ((List.suffix_cons _ _).trans (quotedBody?_suffix heq)).trans (List.suffix_cons _ _)
    · exact ((List.suffix_cons _ _).trans (quotedBody?_suffix heq)).trans (List.suffix_cons _ _)
    · simp at heq
  · simp at h

theorem plainArgument?_splits {text rest : List Char} {argument : Argument}
    (h : plainArgument? text = some (argument, rest)) :
    ∃ plain, argument = .plain plain ∧ text = plain ++ ')' :: rest := by
  have happ := splitPlain_append text
  unfold plainArgument? at h
  split at h
  · rename_i plain after heq
    simp at h
    obtain ⟨rfl, rfl⟩ := h
    rw [heq] at happ
    exact ⟨plain, rfl, happ.symm⟩
  · simp at h

theorem lineArgument?_splits {text rest : List Char} {argument : Argument}
    (h : lineArgument? text = some (argument, rest)) :
    ∃ inner, argument = .line inner ∧ text = inner ++ ')' :: rest := by
  simp only [lineArgument?, Option.map_eq_some_iff, Prod.exists, Prod.mk.injEq] at h
  obtain ⟨inner, after, heq, rfl, rfl⟩ := h
  refine ⟨inner, rfl, ?_⟩
  have := splitLastParenthesis?_append heq
  rw [← List.cons_append, ← List.append_assoc, ← this, List.takeWhile_append_dropWhile]

/-- The argument of a pseudo-class stands between parentheses; without one nothing is taken. -/
theorem splitArgument_splits (text : List Char) :
    (splitArgument text).2 <:+ text ∧
      ∀ inner, (splitArgument text).1 = .line inner →
        text = '(' :: inner ++ ')' :: (splitArgument text).2 := by
  unfold splitArgument
  split
  · rename_i text
    cases hq : quotedArgument? text with
    | some found =>
      obtain ⟨⟨body, hbody⟩, hsuffix⟩ := quotedArgument?_splits hq
      exact ⟨hsuffix.trans (List.suffix_cons _ _), by simp [hbody]⟩
    | none =>
      cases hp : plainArgument? text with
      | some found =>
        obtain ⟨plain, hplain, happ⟩ := plainArgument?_splits hp
        refine ⟨?_, by simp [hplain]⟩
        exact ⟨'(' :: plain ++ [')'], by simp [happ]⟩
      | none =>
        cases hl : lineArgument? text with
        | some found =>
          obtain ⟨inner, hinner, happ⟩ := lineArgument?_splits hl
          refine ⟨⟨'(' :: inner ++ [')'], by simp [happ]⟩, ?_⟩
          intro inner' h
          simp [hinner] at h
          simp [← h, happ]
        | none => simp
  · simp

theorem pseudo?_splits {text : List Char} {lexeme : Lexeme} (h : pseudo? text = some lexeme) :
    lexeme.Splits text := by
  unfold pseudo? at h
  split at h
  · rename_i text
    simp only [Option.bind_eq_bind, Option.bind_eq_some_iff, Prod.exists] at h
    obtain ⟨spelled, after, hname, h⟩ := h
    obtain ⟨hsuffix, hline⟩ := splitArgument_splits after
    have hrest : (splitArgument after).2 <:+ text := hsuffix.trans (identifier?_suffix hname)
    split at h <;> rename_i heq <;> rw [heq] at hrest hline
    · simp at h; subst h; exact exists_raw_of_suffix hrest
    · simp at h; subst h; exact exists_raw_of_suffix hrest
    · simp at h; subst h; exact exists_raw_of_suffix hrest
    · split at h <;> simp at h <;> subst h
      · refine ⟨?_, by simp⟩
        have := hline _ rfl
        simp [(identifier?_append hname).1, this]
      · exact exists_raw_of_suffix hrest
  · simp at h

theorem simpleTest_splits (text : List Char) : (simpleTest text).Splits text := by
  unfold simpleTest
  split
  · trivial
  · rename_i c text
    split
    · exact ⟨[c], rfl, by simp⟩
    split
    · split
      · exact exists_raw_of_suffix (identifier?_suffix ‹_›)
      · trivial
    split
    · split
      · exact exists_raw_of_suffix (identifier?_suffix ‹_›)
      · trivial
    split
    · split
      · rename_i heq
        obtain ⟨inner, hinner, hsuffix⟩ := attributeTest?_suffix heq
        obtain ⟨-, rfl⟩ := List.cons.inj hinner
        exact exists_raw_of_suffix hsuffix
      · trivial
    split
    · split
      · rename_i heq
        obtain ⟨inner, hinner, hsuffix⟩ := structural?_suffix heq
        obtain ⟨-, rfl⟩ := List.cons.inj hinner
        exact exists_raw_of_suffix hsuffix
      · trivial
      · cases hp : pseudo? (c :: text) with
        | none => trivial
        | some lexeme => exact pseudo?_splits hp
    · split
      · rename_i heq
        obtain ⟨happ, hne⟩ := identifier?_append heq
        exact ⟨_, happ, hne⟩
      · trivial

theorem Lexeme.next_splits (afterToken : Bool) (text : List Char) :
    (Lexeme.next afterToken text).Splits text := by
  unfold Lexeme.next
  split
  · trivial
  · rename_i h
    split at h
    · exact separator?_splits h
    · simp at h
  · split
    · exact combinator?_splits ‹_›
    · exact simpleTest_splits text

end TreeQuery
