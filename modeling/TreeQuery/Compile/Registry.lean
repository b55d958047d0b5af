import TreeQuery.SelectorError
import TreeQuery.Matching.Matcher

/-!
# Pseudo-classes by name

A pseudo-class without an argument is a question about one element. One with an argument is a
`Recipe`: it may have selectors compiled before it says which matcher it stands for.
-/

namespace TreeQuery

/-- How a pseudo-class with an argument becomes a matcher. -/
inductive Recipe where
  | ready (matcher : Matcher)
  | reject (error : SelectorError)
  /-- Asks for a compiled selector and goes on with it. -/
  | compile (text : String) (next : Compiled → Recipe)

inductive Pseudo where
  /-- A question about one element; an argument is ignored. -/
  | predicate (accepts : Scope → NodeId → Bool)
  /-- A rule from the argument, if there is one, to a recipe. -/
  | factory (build : Option String → Recipe)

/-- Pseudo-classes by their names in lower case, each name once. -/
structure Registry where
  entries : List (String × Pseudo)

namespace Registry

def empty : Registry := ⟨[]⟩

def get? (r : Registry) (name : String) : Option Pseudo :=
  (r.entries.find? fun entry => entry.1 == name).map (·.2)

/-- Registers a pseudo-class in place of any other of its name. -/
def register (r : Registry) (name : String) (pseudo : Pseudo) : Registry :=
  let name := name.toLower
  ⟨(name, pseudo) :: r.entries.filter fun entry => entry.1 != name⟩

def size (r : Registry) : Nat := r.entries.length

def names (r : Registry) : List String :=
  (r.entries.map (·.1)).mergeSort fun a b => a ≤ b

def contains (r : Registry) (name : String) : Bool := (r.get? name).isSome

end Registry

end TreeQuery
