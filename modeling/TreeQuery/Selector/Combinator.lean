/-!
# Combinators

A combinator relates the element on its right to the element on its left. Two of them look at
parents and two at earlier siblings; in each pair one takes a single step and one takes any number.
-/

namespace TreeQuery

/-- Which way a combinator leads from the element on its right. -/
inductive Direction where
  | parent
  | previousSibling
  deriving Repr, DecidableEq, Inhabited, Hashable

inductive Combinator where
  /-- A blank: the left element is an ancestor. -/
  | descendant
  /-- The sign `>`: the left element is the parent. -/
  | child
  /-- The sign `+`: the left element is the closest earlier sibling. -/
  | adjacent
  /-- The sign `~`: the left element is an earlier sibling. -/
  | sibling
  deriving Repr, DecidableEq, Inhabited

namespace Combinator

def ofSymbol (symbol : String) : Combinator :=
  if symbol == ">" then .child
  else if symbol == "+" then .adjacent
  else if symbol == "~" then .sibling
  else .descendant

def symbol : Combinator → String
  | .descendant => " "
  | .child => ">"
  | .adjacent => "+"
  | .sibling => "~"

def direction : Combinator → Direction
  | .descendant | .child => .parent
  | .adjacent | .sibling => .previousSibling

/-- Whether exactly one step separates the two elements. -/
def isDirect : Combinator → Bool
  | .child | .adjacent => true
  | .descendant | .sibling => false

def isSibling (c : Combinator) : Bool :=
  c.direction == .previousSibling

theorem ofSymbol_symbol (c : Combinator) : ofSymbol c.symbol = c := by
  cases c <;> decide

end Combinator

end TreeQuery
