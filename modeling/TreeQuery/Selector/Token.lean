import TreeQuery.Selector.Combinator

/-!
# Tokens of a selector

A selector list is a comma group of clauses, a clause is a row of tokens, and a token keeps the
text it was read from beside its meaning. The texts of a clause's tokens put together give the text
of the clause.
-/

namespace TreeQuery

/-- How an attribute test compares the value of the attribute with the text it checks for. -/
inductive AttributeOperator where
  | equals
  | differs
  | startsWith
  | endsWith
  | contains
  | includes
  | dashMatch
  deriving Repr, DecidableEq, Inhabited

def AttributeOperator.symbol : AttributeOperator → String
  | .equals => "="
  | .differs => "!="
  | .startsWith => "^="
  | .endsWith => "$="
  | .contains => "*="
  | .includes => "~="
  | .dashMatch => "|="

/-- A test in square brackets. Without an operator the attribute need only be present. -/
structure AttributeTest where
  name : String
  operator : Option AttributeOperator
  /-- What the value is compared with; for `~=` it stands between two spaces. -/
  value : String
  deriving Repr, DecidableEq, Inhabited

/-- What a structural position asks of an element among its siblings. -/
inductive Position where
  | first
  | last
  | only
  | nth
  | nthLast
  deriving Repr, DecidableEq, Inhabited

/-- A position among all element siblings, or among those with the same tag. The coefficients of
`a n + b` are zero for the positions that do not count. -/
structure StructuralPosition where
  position : Position
  ofType : Bool
  a : Int
  b : Int
  deriving Repr, DecidableEq, Inhabited

namespace StructuralPosition

/-- Whether `rank = a n + b` for some natural number `n`. -/
def accepts (p : StructuralPosition) (rank : Int) : Bool :=
  let difference := rank - p.b
  if p.a = 0 then difference = 0
  else difference.tmod p.a = 0 && 0 ≤ difference.tdiv p.a

def fromEnd (p : StructuralPosition) : Bool :=
  p.position == .last || p.position == .nthLast

end StructuralPosition

structure PseudoClass where
  /-- The name without escapes, in lower case. -/
  name : String
  /-- The argument without its quotes; its escapes stand. -/
  argument : Option String
  quoted : Bool
  deriving Repr, DecidableEq, Inhabited

inductive TokenValue where
  | tag (name : String)
  | id (name : String)
  | className (name : String)
  | attribute (test : AttributeTest)
  | structural (position : StructuralPosition)
  | pseudo (call : PseudoClass)
  | combinator (c : Combinator)
  deriving Repr, DecidableEq, Inhabited

structure Token where
  /-- The text the token was read from. -/
  raw : String
  value : TokenValue
  deriving Repr, DecidableEq, Inhabited

def Token.combinator? (t : Token) : Option Combinator :=
  match t.value with
  | .combinator c => some c
  | _ => none

/-- The tokens between two commas. -/
abbrev Clause := List Token

namespace Clause

def text (clause : Clause) : String :=
  clause.foldr (fun t rest => t.raw ++ rest) ""

/-- Whether the first token relates the clause to siblings of the query context. -/
def leadsWithSibling (clause : Clause) : Bool :=
  match clause.head?.bind Token.combinator? with
  | some c => c.isSibling
  | none => false

end Clause

/-- A comma group of clauses. -/
structure SelectorList where
  /-- The text it was read from, without the blanks around it. -/
  source : String
  clauses : List Clause
  deriving Repr, DecidableEq, Inhabited

namespace SelectorList

/-- The clauses with one comma and one space between them. -/
def display (list : SelectorList) : String :=
  ", ".intercalate (list.clauses.map Clause.text)

/-- Whether some clause reaches the siblings of the query context. -/
def leadsWithSibling (list : SelectorList) : Bool :=
  list.clauses.any Clause.leadsWithSibling

end SelectorList

end TreeQuery
