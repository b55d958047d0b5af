import TreeQuery.Selector.Scan

/-!
# Selectors as they are written

A written selector is a group of clauses; a clause is a row of compounds with combinators between
them, and the argument of a pseudo-class may be another group. Names and values are any texts: what
an identifier cannot hold is written as an escape. The blanks around combinators and commas are part
of what is written. No selector is written over several lines.
-/

namespace TreeQuery

namespace Written

/-- A text without the character of code zero, which no escape stands for. -/
structure Text where
  chars : List Char
  noNul : '\x00' ∉ chars

structure Name extends Text where
  nonempty : chars ≠ []

/-- A character in an identifier. An escape is a backslash, the code of the character and a blank,
which may be missing at the end of a text. -/
def escapeChar (last : Bool) (c : Char) : List Char :=
  if isWordChar c || !isAscii c then [c]
  else '\\' :: Nat.toDigits 16 c.toNat ++ if last then [] else [' ']

/-- A text in an identifier, `last` if it ends the whole text without a blank. -/
def spell (last : Bool) : List Char → List Char
  | [] => []
  | c :: rest => escapeChar (last && rest.isEmpty) c ++ spell last rest

structure Blanks where
  chars : List Char
  blank : ∀ c ∈ chars, isBlank c = true ∧ c ≠ '\n'

inductive Sign where
  | child
  | adjacent
  | sibling
  deriving DecidableEq

def Sign.char : Sign → Char
  | .child => '>'
  | .adjacent => '+'
  | .sibling => '~'

def Sign.combinator : Sign → Combinator
  | .child => .child
  | .adjacent => .adjacent
  | .sibling => .sibling

/-- What stands between two compounds. -/
inductive Joint where
  | blanks (gap : Blanks) (nonempty : gap.chars ≠ [])
  | sign (before : Blanks) (s : Sign) (after : Blanks)

def Joint.text : Joint → List Char
  | .blanks gap _ => gap.chars
  | .sign before s after => before.chars ++ s.char :: after.chars

def Joint.combinator : Joint → Combinator
  | .blanks _ _ => .descendant
  | .sign _ s _ => s.combinator

def Joint.token (j : Joint) : Token := ⟨String.ofList j.text, .combinator j.combinator⟩

/-- A combinator in front of a clause. -/
structure Lead where
  sign : Sign
  after : Blanks

def Lead.text (l : Lead) : List Char := l.sign.char :: l.after.chars

def Lead.token (l : Lead) : Token := ⟨String.ofList l.text, .combinator l.sign.combinator⟩

/-- The blanks around a comma. -/
structure Comma where
  before : Blanks
  after : Blanks

def Comma.text (c : Comma) : List Char := c.before.chars ++ ',' :: c.after.chars

structure Attribute where
  name : Name
  comparison : Option (AttributeOperator × Text)

/-- What stands behind the name. The value of a comparison is in double quotes. -/
def comparisonText : Option (AttributeOperator × Text) → List Char
  | none => [']']
  | some (operator, value) =>
    operator.symbol.toList ++ '"' :: spell false value.chars ++ ['"', ']']

def Attribute.text (a : Attribute) : List Char :=
  '[' :: spell false a.name.chars ++ comparisonText a.comparison

def Attribute.test (a : Attribute) : AttributeTest where
  name := String.ofList a.name.chars
  operator := a.comparison.map (·.1)
  value :=
    match a.comparison with
    | none => ""
    | some (.includes, value) => " " ++ String.ofList value.chars ++ " "
    | some (_, value) => String.ofList value.chars

/-- The sign of a number, if it has one. -/
inductive Mark where
  | none
  | plus
  | minus

def Mark.text : Mark → List Char
  | .none => []
  | .plus => ['+']
  | .minus => ['-']

def Mark.negative : Mark → Bool
  | .minus => true
  | _ => false

def Mark.apply (m : Mark) (n : Nat) : Int := if m.negative then -n else n

/-- A number in the range of numerals. -/
structure Numeral where
  value : Nat
  inRange : (value : Int) ≤ maxSigned

def Numeral.text (n : Numeral) : List Char := Nat.toDigits 10 n.value

/-- The number before `n`, which may be missing and is one then. -/
structure Step where
  mark : Mark
  number : Option Numeral

def Step.digits (s : Step) : List Char := (s.number.map Numeral.text).getD []

def Step.value (s : Step) : Int := s.mark.apply ((s.number.map Numeral.value).getD 1)

structure Offset where
  mark : Mark
  number : Numeral

def Offset.value (o : Offset) : Int := o.mark.apply o.number.value

/-- The argument of a position that counts. -/
inductive Count where
  | even
  | odd
  | linear (step : Option Step) (offset : Option Offset)

def stepText : Option Step → List Char
  | none => []
  | some s => s.mark.text ++ s.digits ++ ['n']

def offsetText : Option Offset → List Char
  | none => []
  | some o => o.mark.text ++ o.number.text

def Count.text : Count → List Char
  | .even => ['e', 'v', 'e', 'n']
  | .odd => ['o', 'd', 'd']
  | .linear step offset => stepText step ++ offsetText offset

def Count.coefficients : Count → Int × Int
  | .even => (2, 0)
  | .odd => (2, 1)
  | .linear step offset => ((step.map Step.value).getD 0, (offset.map Offset.value).getD 0)

/-- A structural position, with an argument if it counts. -/
inductive Place where
  | plain (position : Position) (plain : position ≠ .nth ∧ position ≠ .nthLast) (ofType : Bool)
  | counted (fromEnd ofType : Bool) (count : Count)

def keyword : Position → List Char
  | .first => ['f', 'i', 'r', 's', 't']
  | .last => ['l', 'a', 's', 't']
  | .only => ['o', 'n', 'l', 'y']
  | .nth => ['n', 't', 'h']
  | .nthLast => ['n', 't', 'h', '-', 'l', 'a', 's', 't']

def kind (ofType : Bool) : List Char :=
  if ofType then ['-', 'o', 'f', '-', 't', 'y', 'p', 'e'] else ['-', 'c', 'h', 'i', 'l', 'd']

def counting (fromEnd : Bool) : Position := if fromEnd then .nthLast else .nth

def Place.text : Place → List Char
  | .plain position _ ofType => ':' :: keyword position ++ kind ofType
  | .counted fromEnd ofType count =>
    ':' :: keyword (counting fromEnd) ++ kind ofType ++ '(' :: count.text ++ [')']

def Place.value : Place → StructuralPosition
  | .plain position _ ofType => ⟨position, ofType, 0, 0⟩
  | .counted fromEnd ofType count =>
    ⟨counting fromEnd, ofType, count.coefficients.1, count.coefficients.2⟩

/-- The name of a pseudo-class: in lower case, and not that of a structural position. -/
structure PseudoName extends Name where
  lower : ∀ c ∈ chars, c.toLower = c
  other : ∀ position ofType, chars.map foldedLetter ≠ keyword position ++ kind ofType

/-- Whether a text may stand between quotes as it is: a backslash takes the character after it. -/
def quotable (quote : Char) : List Char → Bool
  | [] => true
  | ['\\'] => false
  | '\\' :: c :: rest => c != '\n' && quotable quote rest
  | c :: rest => c != quote && c != '\n' && quotable quote rest

structure Quoted where
  quote : Char
  body : List Char
  isQuote : quote = '\'' ∨ quote = '"'
  isQuotable : quotable quote body = true

def Quoted.text (q : Quoted) : List Char := q.quote :: q.body ++ [q.quote]

/-- The characters that an argument without quotes may not hold. -/
def special : List Char := ['\'', '"', '\\', '[', ']', '(', ')', '\n']

/-- A text that needs no quotes in an argument. -/
structure Bare where
  chars : List Char
  bare : ∀ c ∈ chars, c ∉ special

mutual

/-- A simple test. -/
inductive Filter where
  | id (name : Name)
  | className (name : Name)
  | attribute (a : Attribute)
  | place (p : Place)
  | pseudo (name : PseudoName) (argument : Inner)

/-- The argument of a pseudo-class. -/
inductive Inner where
  | absent
  | quoted (text : Quoted)
  | bare (text : Bare)
  | group (g : Group)

/-- A compound is never empty. Without a name its tag is any. -/
inductive Compound where
  | tagged (tag : Option Name) (filters : List Filter)
  | untagged (first : Filter) (filters : List Filter)

inductive Row where
  | single (c : Compound)
  | joined (c : Compound) (j : Joint) (rest : Row)

inductive Group where
  | single (lead : Option Lead) (r : Row)
  | separated (lead : Option Lead) (r : Row) (comma : Comma) (rest : Group)

end

def Inner.isAbsent : Inner → Bool
  | .absent => true
  | _ => false

def tagText (last : Bool) : Option Name → List Char
  | none => ['*']
  | some name => spell last name.chars

def leadText : Option Lead → List Char
  | none => []
  | some l => l.text

mutual

def Filter.text (last : Bool) : Filter → List Char
  | .id name => '#' :: spell last name.chars
  | .className name => '.' :: spell last name.chars
  | .attribute a => a.text
  | .place p => p.text
  | .pseudo name argument => ':' :: spell (last && argument.isAbsent) name.chars ++ argument.text

/-- An argument in its parentheses. -/
def Inner.text : Inner → List Char
  | .absent => []
  | .quoted q => '(' :: q.text ++ [')']
  | .bare t => '(' :: t.chars ++ [')']
  | .group g => '(' :: g.text false ++ [')']

def filtersText (last : Bool) : List Filter → List Char
  | [] => []
  | f :: rest => f.text (last && rest.isEmpty) ++ filtersText last rest

def Compound.text (last : Bool) : Compound → List Char
  | .tagged tag filters => tagText (last && filters.isEmpty) tag ++ filtersText last filters
  | .untagged first filters => first.text (last && filters.isEmpty) ++ filtersText last filters

def Row.text (last : Bool) : Row → List Char
  | .single c => c.text last
  | .joined c j rest => c.text false ++ j.text ++ rest.text last

def Group.text (last : Bool) : Group → List Char
  | .single lead r => leadText lead ++ r.text last
  | .separated lead r comma rest => leadText lead ++ r.text false ++ comma.text ++ rest.text last

end

def Inner.argument? : Inner → Option String
  | .absent => none
  | .quoted q => some (String.ofList q.body)
  | .bare t => some (String.ofList t.chars)
  | .group g => some (String.ofList (g.text false))

def Inner.isQuoted : Inner → Bool
  | .quoted _ => true
  | _ => false

/-- What a simple test means. -/
def Filter.value : Filter → TokenValue
  | .id name => .id (String.ofList name.chars)
  | .className name => .className (String.ofList name.chars)
  | .attribute a => .attribute a.test
  | .place p => .structural p.value
  | .pseudo name argument =>
    .pseudo ⟨String.ofList name.chars, argument.argument?, argument.isQuoted⟩

def tagValue : Option Name → TokenValue
  | none => .tag "*"
  | some name => .tag (String.ofList name.chars)

def filterTokens (last : Bool) : List Filter → List Token
  | [] => []
  | f :: rest => ⟨String.ofList (f.text (last && rest.isEmpty)), f.value⟩ :: filterTokens last rest

def Compound.tokens (last : Bool) : Compound → List Token
  | .tagged tag filters =>
    ⟨String.ofList (tagText (last && filters.isEmpty) tag), tagValue tag⟩ ::
      filterTokens last filters
  | .untagged first filters => filterTokens last (first :: filters)

def Row.tokens (last : Bool) : Row → List Token
  | .single c => c.tokens last
  | .joined c j rest => c.tokens false ++ j.token :: rest.tokens last

def clause (last : Bool) (lead : Option Lead) (r : Row) : TreeQuery.Clause :=
  (lead.map Lead.token).toList ++ r.tokens last

/-- The clauses of a group. -/
def Group.clauses (last : Bool) : Group → List TreeQuery.Clause
  | .single lead r => [clause last lead r]
  | .separated lead r _ rest => clause false lead r :: rest.clauses last

/-- The text of a group. -/
def Group.print (g : Group) : String := String.ofList (g.text false)

example :
    let id : Filter := .id ⟨⟨['a', ' ', 'b'], by decide⟩, by decide⟩
    let className : Filter := .className ⟨⟨['c'], by decide⟩, by decide⟩
    let comma : Comma := ⟨⟨[], nofun⟩, ⟨[' '], by simp [isBlank]⟩⟩
    let lead : Lead := ⟨.child, ⟨[], nofun⟩⟩
    Group.print (.separated none (.single (.tagged none [id])) comma
      (.single (some lead) (.single (.untagged className [])))) = "*#a\\20 b, >.c" := by
  decide

/-- What is read from the text of a group. A blank behind an escape at the very end is taken for a
blank around the text. -/
def Group.list (g : Group) : SelectorList := ⟨String.ofList (g.text true), g.clauses true⟩

end Written

end TreeQuery
