import TreeQuery.Matching.Run

/-!
# What matchers mean

The meaning of tests, matchers and compiled selectors without a memo. A walk asks every element on
its way, a rank is looked up among the siblings, and a stage refers to the members of the stage
before it. The names of walks and plans do not occur.
-/

namespace TreeQuery

def Document.siblingRank (d : Document) (xml : Bool) (n : NodeId) : Option SiblingRank :=
  (d.parent n).bind fun p => ((d.childRanks xml p).find? fun entry => entry.1 = n).map (·.2)

def Scope.stands (s : Scope) (p : StructuralPosition) (n : NodeId) : Bool :=
  if p.a = 1 ∧ p.b = 0 then (s.document.parent n).isSome
  else (s.document.siblingRank s.xml n).any fun rank => p.accepts (rank.forPosition p)

/-- Whether one of the elements from `start` on is accepted. -/
def Document.finds (d : Document) (direction : Direction) (accepts : NodeId → Bool)
    (start : Option NodeId) : Bool :=
  (seek (d.stepTo direction) accepts d.size start).isSome

/-- Whether a combinator leads from an element to one that is accepted. -/
def Document.relates (d : Document) (c : Combinator) (accepts : NodeId → Bool) (n : NodeId) : Bool :=
  if c.isDirect then (d.stepTo c.direction n).any accepts
  else d.finds c.direction accepts (d.stepTo c.direction n)

mutual

/-- Whether an element passes a test, `previous` being the members of the stage before. -/
def Test.holds : Test → (NodeId → Bool) → Scope → NodeId → Bool
  | .check accepts, _, s, n => accepts s n
  | .ranked p, _, s, n => s.stands p n
  | .all tests, previous, s, n => holdsAll tests previous s n
  | .any tests, previous, s, n => holdsAny tests previous s n
  | .related c _ left, previous, s, n => s.document.relates c (fun m => left.holds previous s m) n
  | .anchored _ _, previous, _, n => previous n
  | .negation t, previous, s, n => !t.holds previous s n
  | .has selector, _, s, n =>
    !(selector.result (s.withContext n)
      (s.document.descendantElements (selector.searchRoot s.document n))).isEmpty
  | .fromParent selector, _, s, n =>
    !(selector.result (s.withContext ((s.document.parent n).getD n)) [n]).isEmpty

def holdsAll : List Test → (NodeId → Bool) → Scope → NodeId → Bool
  | [], _, _, _ => true
  | t :: rest, previous, s, n => t.holds previous s n && holdsAll rest previous s n

def holdsAny : List Test → (NodeId → Bool) → Scope → NodeId → Bool
  | [], _, _, _ => false
  | t :: rest, previous, s, n => t.holds previous s n || holdsAny rest previous s n

def SetMatcher.result : SetMatcher → Scope → List NodeId → List NodeId
  | .rearrange choose, _, seed => choose seed
  | .members selector kept, s, seed =>
    seed.filter fun n => (selector.result s seed).contains n == kept
  | .found selector, s, seed => selector.result s seed
  | .apply matcher, s, seed => matcher.result s seed

def Matcher.result : Matcher → Scope → List NodeId → List NodeId
  | .test t, s, seed => seed.filter fun n => t.holds (fun _ => false) s n
  | .set m, s, seed => m.result s seed

/-- What matchers leave one after the other. -/
def narrowed : List Matcher → Scope → List NodeId → List NodeId
  | [], _, found => found
  | m :: rest, s, found => if found.isEmpty then found else narrowed rest s (m.result s found)

def Stage.result : Stage → (NodeId → Bool) → Scope → List NodeId → List NodeId
  | .mk test narrowers, previous, s, source =>
    narrowed narrowers s (source.filter fun n => test.holds previous s n)

/-- The members of the last of some stages, `previous` being the members of the stage before
them. -/
def stageMembers : List Stage → (NodeId → Bool) → Scope → List NodeId → NodeId → Bool
  | [], previous, _, _ => previous
  | stage :: rest, previous, s, population =>
    let members := stage.result previous s population
    stageMembers rest (fun n => members.contains n) s population

def Plan.result : Plan → Scope → List NodeId → List NodeId
  | .mk _ stages last siblingLed, s, pool =>
    last.result (stageMembers stages (fun _ => false) s (s.population siblingLed pool)) s pool

def planResults : List Plan → Scope → List NodeId → List (List NodeId)
  | [], _, _ => []
  | plan :: rest, s, pool => plan.result s pool :: planResults rest s pool

def Compiled.result : Compiled → Scope → List NodeId → List NodeId
  | .mk _ test plans, s, pool =>
    s.host.merge (passing test s pool :: planResults plans s pool)

def passing : Option Test → Scope → List NodeId → List NodeId
  | none, _, _ => []
  | some t, s, pool => pool.filter fun n => t.holds (fun _ => false) s n
termination_by structural t => t

end

end TreeQuery
