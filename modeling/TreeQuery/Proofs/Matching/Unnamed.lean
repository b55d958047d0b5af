import Mathlib.Tactic.Lemma
import TreeQuery.Proofs.Matching.Meaning

/-!
# Matchers without names

Two compilations of one text differ in the names that they gave. `unnamed` drops the names; what
matchers mean does not change with them.
-/

namespace TreeQuery

mutual

def Test.unnamed : Test → Test
  | .check accepts => .check accepts
  | .ranked p => .ranked p
  | .all tests => .all (unnamedTests tests)
  | .any tests => .any (unnamedTests tests)
  | .related c _ left => .related c 0 left.unnamed
  | .anchored _ stage => .anchored 0 stage
  | .negation t => .negation t.unnamed
  | .has selector => .has selector.unnamed
  | .fromParent selector => .fromParent selector.unnamed

def unnamedTests : List Test → List Test
  | [] => []
  | t :: rest => t.unnamed :: unnamedTests rest

def SetMatcher.unnamed : SetMatcher → SetMatcher
  | .rearrange choose => .rearrange choose
  | .members selector kept => .members selector.unnamed kept
  | .found selector => .found selector.unnamed
  | .apply matcher => .apply matcher.unnamed

def Matcher.unnamed : Matcher → Matcher
  | .test t => .test t.unnamed
  | .set m => .set m.unnamed

def unnamedMatchers : List Matcher → List Matcher
  | [] => []
  | m :: rest => m.unnamed :: unnamedMatchers rest

def Stage.unnamed : Stage → Stage
  | .mk test narrowers => .mk test.unnamed (unnamedMatchers narrowers)

def unnamedStages : List Stage → List Stage
  | [] => []
  | stage :: rest => stage.unnamed :: unnamedStages rest

def Plan.unnamed : Plan → Plan
  | .mk _ stages last siblingLed => .mk 0 (unnamedStages stages) last.unnamed siblingLed

def unnamedPlans : List Plan → List Plan
  | [] => []
  | plan :: rest => plan.unnamed :: unnamedPlans rest

def Compiled.unnamed : Compiled → Compiled
  | .mk list test plans => .mk list (unnamedTest test) (unnamedPlans plans)

def unnamedTest : Option Test → Option Test
  | none => none
  | some t => some t.unnamed

end

@[simp] lemma unnamedTests_eq_map (ts : List Test) : unnamedTests ts = ts.map Test.unnamed := by
  induction ts with
  | nil => rfl
  | cons t rest ih => rw [unnamedTests, ih, List.map_cons]

@[simp] lemma unnamedMatchers_eq_map (ms : List Matcher) :
    unnamedMatchers ms = ms.map Matcher.unnamed := by
  induction ms with
  | nil => rfl
  | cons m rest ih => rw [unnamedMatchers, ih, List.map_cons]

@[simp] lemma unnamedStages_eq_map (stages : List Stage) :
    unnamedStages stages = stages.map Stage.unnamed := by
  induction stages with
  | nil => rfl
  | cons stage rest ih => rw [unnamedStages, ih, List.map_cons]

@[simp] lemma unnamedPlans_eq_map (plans : List Plan) :
    unnamedPlans plans = plans.map Plan.unnamed := by
  induction plans with
  | nil => rfl
  | cons plan rest ih => rw [unnamedPlans, ih, List.map_cons]

@[simp] lemma unnamedTest_eq_map (t : Option Test) : unnamedTest t = t.map Test.unnamed := by
  cases t <;> rfl

namespace Compiled

@[simp] lemma list_unnamed (c : Compiled) : c.unnamed.list = c.list := by
  cases c
  rfl

@[simp] lemma searchRoot_unnamed (c : Compiled) (d : Document) (n : NodeId) :
    c.unnamed.searchRoot d n = c.searchRoot d n := by
  simp [searchRoot, leadsWithSibling]

@[simp] lemma isElementOnly_unnamed (c : Compiled) :
    c.unnamed.isElementOnly = c.isElementOnly := by
  cases c with
  | mk list test plans => cases plans <;> rfl

@[simp] lemma elementTest_unnamed (c : Compiled) :
    c.unnamed.elementTest = c.elementTest.map Test.unnamed := by
  cases c with
  | mk list test plans => cases plans <;> cases test <;> rfl

end Compiled

mutual

theorem Test.holds_unnamed : ∀ (t : Test) (previous : NodeId → Bool) (s : Scope) (n : NodeId),
    t.unnamed.holds previous s n = t.holds previous s n
  | .check _, _, _, _ => rfl
  | .ranked _, _, _, _ => rfl
  | .all tests, previous, s, n => holdsAll_unnamed tests previous s n
  | .any tests, previous, s, n => holdsAny_unnamed tests previous s n
  | .related c _ left, previous, s, n => by
    rw [Test.unnamed, Test.holds, Test.holds]
    congr 1
    exact funext fun m => Test.holds_unnamed left previous s m
  | .anchored _ _, _, _, _ => rfl
  | .negation t, previous, s, n => by
    rw [Test.unnamed, Test.holds, Test.holds, Test.holds_unnamed t previous s n]
  | .has selector, _, s, n => by
    rw [Test.unnamed, Test.holds, Test.holds, Compiled.searchRoot_unnamed,
      Compiled.result_unnamed selector]
  | .fromParent selector, _, s, n => by
    rw [Test.unnamed, Test.holds, Test.holds, Compiled.result_unnamed selector]

theorem holdsAll_unnamed : ∀ (ts : List Test) (previous : NodeId → Bool) (s : Scope) (n : NodeId),
    holdsAll (unnamedTests ts) previous s n = holdsAll ts previous s n
  | [], _, _, _ => rfl
  | t :: rest, previous, s, n => by
    rw [unnamedTests, holdsAll, holdsAll, Test.holds_unnamed t previous s n,
      holdsAll_unnamed rest previous s n]

theorem holdsAny_unnamed : ∀ (ts : List Test) (previous : NodeId → Bool) (s : Scope) (n : NodeId),
    holdsAny (unnamedTests ts) previous s n = holdsAny ts previous s n
  | [], _, _, _ => rfl
  | t :: rest, previous, s, n => by
    rw [unnamedTests, holdsAny, holdsAny, Test.holds_unnamed t previous s n,
      holdsAny_unnamed rest previous s n]

theorem SetMatcher.result_unnamed : ∀ (m : SetMatcher) (s : Scope) (seed : List NodeId),
    m.unnamed.result s seed = m.result s seed
  | .rearrange _, _, _ => rfl
  | .members selector _, s, seed => by
    rw [SetMatcher.unnamed, SetMatcher.result, SetMatcher.result,
      Compiled.result_unnamed selector s seed]
  | .found selector, s, seed => Compiled.result_unnamed selector s seed
  | .apply matcher, s, seed => Matcher.result_unnamed matcher s seed

theorem Matcher.result_unnamed : ∀ (m : Matcher) (s : Scope) (seed : List NodeId),
    m.unnamed.result s seed = m.result s seed
  | .test t, s, seed => by
    rw [Matcher.unnamed, Matcher.result, Matcher.result]
    exact List.filter_congr fun n _ => Test.holds_unnamed t _ s n
  | .set m, s, seed => SetMatcher.result_unnamed m s seed

theorem narrowed_unnamed : ∀ (ms : List Matcher) (s : Scope) (found : List NodeId),
    narrowed (unnamedMatchers ms) s found = narrowed ms s found
  | [], _, _ => rfl
  | m :: rest, s, found => by
    rw [unnamedMatchers, narrowed, narrowed, Matcher.result_unnamed m s found,
      narrowed_unnamed rest s]

theorem Stage.result_unnamed : ∀ (stage : Stage) (previous : NodeId → Bool) (s : Scope)
    (source : List NodeId), stage.unnamed.result previous s source = stage.result previous s source
  | .mk test narrowers, previous, s, source => by
    rw [Stage.unnamed, Stage.result, Stage.result, narrowed_unnamed narrowers s]
    congr 1
    exact List.filter_congr fun n _ => Test.holds_unnamed test previous s n

theorem stageMembers_unnamed : ∀ (stages : List Stage) (previous : NodeId → Bool) (s : Scope)
    (population : List NodeId),
    stageMembers (unnamedStages stages) previous s population =
      stageMembers stages previous s population
  | [], _, _, _ => rfl
  | stage :: rest, previous, s, population => by
    rw [unnamedStages, stageMembers, stageMembers, Stage.result_unnamed stage previous s population,
      stageMembers_unnamed rest _ s population]

theorem Plan.result_unnamed : ∀ (plan : Plan) (s : Scope) (pool : List NodeId),
    plan.unnamed.result s pool = plan.result s pool
  | .mk _ stages last _, s, pool => by
    rw [Plan.unnamed, Plan.result, Plan.result, stageMembers_unnamed stages,
      Stage.result_unnamed last]

theorem planResults_unnamed : ∀ (plans : List Plan) (s : Scope) (pool : List NodeId),
    planResults (unnamedPlans plans) s pool = planResults plans s pool
  | [], _, _ => rfl
  | plan :: rest, s, pool => by
    rw [unnamedPlans, planResults, planResults, Plan.result_unnamed plan s pool,
      planResults_unnamed rest s pool]

theorem Compiled.result_unnamed : ∀ (c : Compiled) (s : Scope) (pool : List NodeId),
    c.unnamed.result s pool = c.result s pool
  | .mk _ test plans, s, pool => by
    rw [Compiled.unnamed, Compiled.result, Compiled.result, passing_unnamed test s pool,
      planResults_unnamed plans s pool]

theorem passing_unnamed : ∀ (t : Option Test) (s : Scope) (pool : List NodeId),
    passing (unnamedTest t) s pool = passing t s pool
  | none, _, _ => rfl
  | some t, s, pool => by
    rw [unnamedTest, passing, passing]
    exact List.filter_congr fun n _ => Test.holds_unnamed t _ s n

end

end TreeQuery
