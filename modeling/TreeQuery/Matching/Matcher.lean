import TreeQuery.Matching.Memo
import TreeQuery.Matching.Simple

/-!
# Matchers

What a selector compiles to. A `Test` asks a question of one element; a `SetMatcher` narrows a row
of candidates and may look at all of them. A clause without set matchers is one test. A clause with
set matchers is a `Plan`: each stage keeps the elements that pass its test, narrows them, and leaves
the result as an anchor for the next stage to refer to.
-/

namespace TreeQuery

mutual

inductive Test where
  /-- A question that needs no memory. -/
  | check (accepts : Scope → NodeId → Bool)
  | ranked (position : StructuralPosition)
  /-- All of the tests; they are asked from the last to the first, up to one that fails. -/
  | all (tests : List Test)
  /-- Some of the tests; they are asked from the first on, up to one that passes. -/
  | any (tests : List Test)
  /-- The test of an element that a combinator leads to. -/
  | related (c : Combinator) (id : MatcherId) (left : Test)
  /-- Membership in the result of an earlier stage. -/
  | anchored (plan : MatcherId) (stage : Nat)
  | negation (test : Test)
  /-- A selector finds something from here. -/
  | has (selector : Compiled)
  /-- A selector accepts the element, with its parent for context. -/
  | fromParent (selector : Compiled)

inductive SetMatcher where
  /-- A choice by place alone. -/
  | rearrange (choose : List NodeId → List NodeId)
  /-- The candidates that a selector finds among them, or those that it does not find. -/
  | members (selector : Compiled) (kept : Bool)
  /-- What a selector finds among the candidates, in its own order. -/
  | found (selector : Compiled)
  | apply (matcher : Matcher)

inductive Matcher where
  | test (t : Test)
  | set (s : SetMatcher)

inductive Stage where
  | mk (test : Test) (narrowers : List Matcher)

inductive Plan where
  /-- The last part of the search is the stage after `stages`. A plan that is led by a sibling
  combinator searches among the siblings of the context. -/
  | mk (id : MatcherId) (stages : List Stage) (last : Stage) (siblingLed : Bool)

/-- A compiled selector list: one test for all its clauses without set matchers, and a plan for each
other clause. -/
inductive Compiled where
  | mk (list : SelectorList) (test : Option Test) (plans : List Plan)

end

instance : Inhabited Test := ⟨.all []⟩

instance : Inhabited Matcher := ⟨.test default⟩

instance : Inhabited Compiled := ⟨.mk default none []⟩

namespace Test

def conjunction : List Test → Test
  | [t] => t
  | tests => .all tests

def disjunction : List Test → Test
  | [t] => t
  | tests => .any tests

end Test

def Matcher.isSet : Matcher → Bool
  | .set _ => true
  | .test _ => false

def Plan.siblingLed : Plan → Bool
  | .mk _ _ _ led => led

namespace Compiled

def list : Compiled → SelectorList
  | .mk list _ _ => list

def text (c : Compiled) : String := c.list.source

/-- Whether no clause has a set matcher. -/
def isElementOnly : Compiled → Bool
  | .mk _ _ plans => plans.isEmpty

/-- The test that decides for one element, if there are no plans. -/
def elementTest : Compiled → Option Test
  | .mk _ test [] => test
  | .mk _ _ (_ :: _) => none

def leadsWithSibling (c : Compiled) : Bool := c.list.leadsWithSibling

def toMatcher (c : Compiled) : Matcher :=
  match c.elementTest with
  | some t => .test t
  | none => .set (.found c)

end Compiled

/-- Where elements related to a context are searched: below it, or below its parent where siblings
of the context may be found. -/
def Document.searchRoot (d : Document) (context : NodeId) (siblingLed : Bool) : NodeId :=
  if siblingLed then (d.parent context).getD context else context

def Compiled.searchRoot (c : Compiled) (d : Document) (context : NodeId) : NodeId :=
  d.searchRoot context c.leadsWithSibling

end TreeQuery
