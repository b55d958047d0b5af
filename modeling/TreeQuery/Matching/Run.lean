import TreeQuery.Tree.Order
import TreeQuery.Matching.Matcher

/-!
# Running matchers

The evaluation of tests, set matchers and compiled selectors, with the memo as state. An execution
of a compiled selector starts and ends with a new generation, so that what it remembers under one
context is not used under another.
-/

namespace TreeQuery

/-- Puts the results of several searches together. What a single one found keeps the order in which
it was found; the results of several are put into document order. -/
def Host.merge (h : Host) (results : List (List NodeId)) : List NodeId :=
  let results := results.filter fun found => !found.isEmpty
  if 1 < results.length then h.uniqueSort results.flatten else results.flatten

abbrev Run (α : Type) := StateM Memo α

namespace Run

/-- Asks about the elements that lead away from `next`, up to one that is accepted. With a cell,
every element asked is stamped with it, and a known outcome ends the walk. -/
def walk (d : Document) (direction : Direction) (id : MatcherId) (accepts : NodeId → Run Bool)
    (cell : Option Nat) : Nat → Option NodeId → Run Bool
  | _, none => pure false
  | 0, some _ => pure false
  | bound + 1, some n => do
    let known ← match cell with
      | none => pure none
      | some cell =>
        match (← get).outcome? n direction id with
        | some outcome => pure (some outcome)
        | none => do
          modify (·.stamp n direction id cell)
          pure none
    match known with
    | some outcome => pure outcome
    | none =>
      if ← accepts n then pure true
      else walk d direction id accepts cell bound (d.stepTo direction n)

/-- Asks about the elements that a combinator leads to from `n`. -/
def related (d : Document) (c : Combinator) (id : MatcherId) (accepts : NodeId → Run Bool)
    (n : NodeId) : Run Bool := do
  let next := d.stepTo c.direction n
  if c.isDirect then
    match next with
    | some m => accepts m
    | none => pure false
  else if (← get).walkCache then
    let cell ← modifyGet Memo.openCell
    let outcome ← walk d c.direction id accepts (some cell) d.size next
    modify (·.closeCell cell outcome)
    pure outcome
  else walk d c.direction id accepts none d.size next

/-- Whether an element stands at a counted position. Every element with a parent stands at the
position `n`. -/
def ranked (s : Scope) (p : StructuralPosition) (n : NodeId) : Run Bool :=
  if p.a = 1 ∧ p.b = 0 then pure (s.document.parent n).isSome
  else do
    match ← modifyGet fun m => m.siblingRank s.document s.xml n with
    | some rank => pure (p.accepts (rank.forPosition p))
    | none => pure false

/-- A computation between two new generations. -/
def bracketed {α : Type} (body : Run α) : Run α := do
  modify Memo.bump
  let result ← body
  modify Memo.bump
  pure result

def gather (h : Host) (tested : Run (List NodeId)) (planned : Run (List (List NodeId))) :
    Run (List NodeId) := do
  return h.merge (← bracketed do return (← tested) :: (← planned))

end Run

/-- The elements that stages before the last one draw from: those below the search root, or without
a context all elements of the trees that the candidates stand in. -/
def Scope.population (s : Scope) (siblingLed : Bool) (pool : List NodeId) : List NodeId :=
  let d := s.document
  match s.context with
  | some context => d.descendantElements (d.searchRoot context siblingLed)
  | none =>
    (s.host.roots pool).flatMap fun root =>
      (if d.isElement root then [root] else []) ++ d.descendantElements root

mutual

def Test.eval : Test → Scope → NodeId → Run Bool
  | .check accepts, s, n => pure (accepts s n)
  | .ranked p, s, n => Run.ranked s p n
  | .all tests, s, n => evalAll tests s n
  | .any tests, s, n => evalAny tests s n
  | .related c id left, s, n => Run.related s.document c id (fun m => left.eval s m) n
  | .anchored plan stage, _, n => do return (← get).inAnchor plan stage n
  | .negation t, s, n => do return !(← t.eval s n)
  | .has selector, s, n => do
    let pool := s.document.descendantElements (selector.searchRoot s.document n)
    if pool.isEmpty then return false
    selector.anyMatch (s.withContext n) pool
  | .fromParent selector, s, n =>
    selector.anyMatch (s.withContext ((s.document.parent n).getD n)) [n]

/-- Whether all tests pass, the last one asked first. -/
def evalAll : List Test → Scope → NodeId → Run Bool
  | [], _, _ => pure true
  | t :: rest, s, n => do if ← evalAll rest s n then t.eval s n else pure false

/-- Whether some test passes, the first one asked first. -/
def evalAny : List Test → Scope → NodeId → Run Bool
  | [], _, _ => pure false
  | t :: rest, s, n => do if ← t.eval s n then pure true else evalAny rest s n

def SetMatcher.run : SetMatcher → Scope → List NodeId → Run (List NodeId)
  | .rearrange choose, _, seed => pure (choose seed)
  | .members selector kept, s, seed => do
    let found ← selector.execute s seed
    return seed.filter fun n => found.contains n == kept
  | .found selector, s, seed => selector.execute s seed
  | .apply matcher, s, seed => matcher.apply s seed

def Matcher.apply : Matcher → Scope → List NodeId → Run (List NodeId)
  | .test t, s, seed => seed.filterM (t.eval s)
  | .set m, s, seed => m.run s seed

/-- Applies matchers one after the other, up to an empty result. -/
def narrow : List Matcher → Scope → List NodeId → Run (List NodeId)
  | [], _, found => pure found
  | m :: rest, s, found => do
    if found.isEmpty then pure found
    else narrow rest s (← m.apply s found)

def Stage.run : Stage → Scope → List NodeId → Run (List NodeId)
  | .mk test narrowers, s, source => do
    narrow narrowers s (← source.filterM (test.eval s))

/-- Runs stages that draw from one population and publishes the result of each. -/
def runStages : List Stage → MatcherId → Nat → Scope → List NodeId → Run Unit
  | [], _, _, _, _ => pure ()
  | stage :: rest, id, index, s, population => do
    let members ← stage.run s population
    modify (·.setAnchor id index members)
    runStages rest id (index + 1) s population

def Plan.run : Plan → Scope → List NodeId → Run (List NodeId)
  | .mk id stages last siblingLed, s, pool => do
    unless stages.isEmpty do runStages stages id 0 s (s.population siblingLed pool)
    let found ← last.run s pool
    modify (·.clearAnchors id)
    return found

def runPlans : List Plan → Scope → List NodeId → Run (List (List NodeId))
  | [], _, _ => pure []
  | plan :: rest, s, pool => do
    let found ← plan.run s pool
    return found :: (← runPlans rest s pool)

def Compiled.execute : Compiled → Scope → List NodeId → Run (List NodeId)
  | .mk _ test plans, s, pool => Run.gather s.host (evalPool test s pool) (runPlans plans s pool)

def evalPool : Option Test → Scope → List NodeId → Run (List NodeId)
  | none, _, _ => pure []
  | some t, s, pool => pool.filterM (t.eval s)

/-- Whether a compiled selector finds anything among candidates. Without plans the first candidate
that passes settles it. -/
def Compiled.anyMatch : Compiled → Scope → List NodeId → Run Bool
  | .mk _ test plans, s, pool =>
    if plans.isEmpty then Run.bracketed (evalSome test s pool)
    else do return !(← Run.gather s.host (evalPool test s pool) (runPlans plans s pool)).isEmpty

def evalSome : Option Test → Scope → List NodeId → Run Bool
  | none, _, _ => pure false
  | some t, s, pool => pool.anyM (t.eval s)
termination_by structural t => t

end

end TreeQuery
