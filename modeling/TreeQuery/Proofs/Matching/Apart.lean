import TreeQuery.Proofs.Matching.Soundness

/-!
# Nested queries on a memo of their own

`:has` runs a selector in the middle of another execution and shares its memo. `apart` has every
`:has` asked on an empty memo instead, which is thrown away. What a selector finds does not change
with that, so that a nested query leaves nothing behind that the execution around it would notice.
-/

namespace TreeQuery

/-- Whether a selector finds something from an element, asked on a memo of its own. -/
def Compiled.findsApart (selector : Compiled) (s : Scope) (n : NodeId) : Bool :=
  ((Test.has selector).eval s n (.empty true 0)).1

mutual

def Test.apart : Test → Test
  | .check accepts => .check accepts
  | .ranked p => .ranked p
  | .all tests => .all (apartTests tests)
  | .any tests => .any (apartTests tests)
  | .related c id left => .related c id left.apart
  | .anchored plan stage => .anchored plan stage
  | .negation t => .negation t.apart
  | .has selector => .check selector.findsApart
  | .fromParent selector => .fromParent selector.apart

def apartTests : List Test → List Test
  | [] => []
  | t :: rest => t.apart :: apartTests rest

def SetMatcher.apart : SetMatcher → SetMatcher
  | .rearrange choose => .rearrange choose
  | .members selector kept => .members selector.apart kept
  | .found selector => .found selector.apart
  | .apply matcher => .apply matcher.apart

def Matcher.apart : Matcher → Matcher
  | .test t => .test t.apart
  | .set m => .set m.apart

def apartMatchers : List Matcher → List Matcher
  | [] => []
  | m :: rest => m.apart :: apartMatchers rest

def Stage.apart : Stage → Stage
  | .mk test narrowers => .mk test.apart (apartMatchers narrowers)

def apartStages : List Stage → List Stage
  | [] => []
  | stage :: rest => stage.apart :: apartStages rest

def Plan.apart : Plan → Plan
  | .mk id stages last siblingLed => .mk id (apartStages stages) last.apart siblingLed

def apartPlans : List Plan → List Plan
  | [] => []
  | plan :: rest => plan.apart :: apartPlans rest

def Compiled.apart : Compiled → Compiled
  | .mk list test plans => .mk list (apartTest test) (apartPlans plans)

def apartTest : Option Test → Option Test
  | none => none
  | some t => some t.apart

end

def Named.apart : Named → Named
  | .walk left previous => .walk left.apart previous
  | .plan p => .plan p.apart

/-- The names stay with the walks and plans in which nested queries are asked apart. -/
def Naming.apart (N : Naming) : Naming := fun id => (N id).map Named.apart

lemma Naming.apart_eq_some {N : Naming} {id : MatcherId} {named : Named}
    (h : N id = some named) : N.apart id = some named.apart := by
  rw [apart, h, Option.map_some]

lemma length_apartStages (stages : List Stage) : (apartStages stages).length = stages.length := by
  induction stages with
  | nil => rfl
  | cons stage rest ih => rw [apartStages, List.length_cons, ih, List.length_cons]

mutual

theorem Test.Fits.apart {N : Naming} : ∀ (t : Test) (previous : Option StageName),
    t.Fits N previous → t.apart.Fits N.apart previous
  | .check _, _, _ => trivial
  | .ranked _, _, _ => trivial
  | .all tests, previous, ht => fitAll_apart tests previous ht
  | .any tests, previous, ht => fitAll_apart tests previous ht
  | .related _ _ left, _, ⟨used, hused, hid, hleft⟩ =>
    ⟨used, hused, Naming.apart_eq_some hid, Test.Fits.apart left used hleft⟩
  | .anchored _ _, _, ht => ht
  | .negation t, previous, ht => Test.Fits.apart t previous ht
  | .has _, _, _ => trivial
  | .fromParent selector, _, hc => Compiled.Fits.apart selector hc

theorem fitAll_apart {N : Naming} : ∀ (ts : List Test) (previous : Option StageName),
    fitAll N ts previous → fitAll N.apart (apartTests ts) previous
  | [], _, _ => trivial
  | t :: rest, previous, ⟨ht, hrest⟩ =>
    ⟨Test.Fits.apart t previous ht, fitAll_apart rest previous hrest⟩

theorem SetMatcher.Fits.apart {N : Naming} : ∀ m : SetMatcher, m.Fits N → m.apart.Fits N.apart
  | .rearrange _, hm => hm
  | .members selector _, hm => Compiled.Fits.apart selector hm
  | .found selector, hm => Compiled.Fits.apart selector hm
  | .apply matcher, hm => Matcher.Fits.apart matcher hm

theorem Matcher.Fits.apart {N : Naming} : ∀ m : Matcher, m.Fits N → m.apart.Fits N.apart
  | .test t, hm => Test.Fits.apart t none hm
  | .set m, hm => SetMatcher.Fits.apart m hm

theorem fitNarrowers_apart {N : Naming} : ∀ ms : List Matcher,
    fitNarrowers N ms → fitNarrowers N.apart (apartMatchers ms)
  | [], _ => trivial
  | m :: rest, ⟨hm, hrest⟩ => ⟨Matcher.Fits.apart m hm, fitNarrowers_apart rest hrest⟩

theorem Stage.Fits.apart {N : Naming} : ∀ (stage : Stage) (previous : Option StageName),
    stage.Fits N previous → stage.apart.Fits N.apart previous
  | .mk test narrowers, previous, ⟨ht, hms⟩ =>
    ⟨Test.Fits.apart test previous ht, fitNarrowers_apart narrowers hms⟩

theorem fitStages_apart {N : Naming} (plan : MatcherId) : ∀ (stages : List Stage) (index : Nat)
    (previous : Option StageName), fitStages N plan stages index previous →
      fitStages N.apart plan (apartStages stages) index previous
  | [], _, _, _ => trivial
  | stage :: rest, index, previous, ⟨hs, hrest⟩ =>
    ⟨Stage.Fits.apart stage previous hs, fitStages_apart plan rest (index + 1) _ hrest⟩

theorem Plan.Fits.apart {N : Naming} : ∀ plan : Plan, plan.Fits N → plan.apart.Fits N.apart
  | .mk id stages last _, ⟨hid, hstages, hlast⟩ => by
    refine ⟨Naming.apart_eq_some hid, fitStages_apart id stages 0 none hstages, ?_⟩
    rw [length_apartStages]
    exact Stage.Fits.apart last _ hlast

theorem fitPlans_apart {N : Naming} : ∀ plans : List Plan,
    fitPlans N plans → fitPlans N.apart (apartPlans plans)
  | [], _ => trivial
  | plan :: rest, ⟨hp, hrest⟩ => ⟨Plan.Fits.apart plan hp, fitPlans_apart rest hrest⟩

theorem Compiled.Fits.apart {N : Naming} : ∀ c : Compiled, c.Fits N → c.apart.Fits N.apart
  | .mk _ test plans, ⟨ht, hplans⟩ => ⟨fitTest_apart test ht, fitPlans_apart plans hplans⟩

theorem fitTest_apart {N : Naming} : ∀ t : Option Test, fitTest N t → fitTest N.apart (apartTest t)
  | none, _ => trivial
  | some t, ht => Test.Fits.apart t none ht

end

lemma Memo.ready_empty (N : Naming) (f : Frame) (bound : Nat) (walkCache : Bool) (limit : Nat) :
    (empty walkCache limit).Ready N f bound none :=
  (forgotten_of_empty rfl rfl).ready (valid_of_empty rfl rfl)

/-- A nested query on a memo of its own finds what it means. -/
theorem Compiled.findsApart_eq {N : Naming} {selector : Compiled} {s : Scope}
    (hforest : s.document.IsForest) (hc : selector.Fits N) {n : NodeId}
    (helem : s.document.isElement n = true) (previous : NodeId → Bool) :
    selector.findsApart s n = (Test.has selector).holds previous s n := by
  have hready := Memo.ready_empty N ⟨s, []⟩ (sizeOf (Test.has selector)) true 0
  exact (Test.eval_gives (.has selector) ⟨s, []⟩ none hforest hc n helem _ hready).1

/-- A combinator leads to elements only. -/
theorem Document.relates_congr {d : Document} {p q : NodeId → Bool}
    (h : ∀ n, d.isElement n = true → p n = q n) (c : Combinator) (n : NodeId) :
    d.relates c p n = d.relates c q n := by
  have hseek : ∀ (bound : Nat) (start : Option NodeId),
      (∀ k, start = some k → d.isElement k = true) →
      seek (d.stepTo c.direction) p bound start = seek (d.stepTo c.direction) q bound start := by
    intro bound
    induction bound with
    | zero => intro start _; cases start <;> rfl
    | succ bound ih =>
      intro start hstart
      cases start with
      | none => rfl
      | some k => rw [seek, seek, h k (hstart k rfl), ih _ fun l hl => isElement_of_stepTo hl]
  unfold relates finds
  split
  · cases hstep : d.stepTo c.direction n with
    | none => rfl
    | some k => exact h k (isElement_of_stepTo hstep)
  · rw [hseek _ _ fun k hk => isElement_of_stepTo hk]

section

variable {N : Naming}

-- A nested query is settled by what it means only at elements of a forest, so the induction carries
-- that all candidates are elements: walks lead to elements, and matchers find candidates only.
mutual

theorem Test.holds_apart {s : Scope} (hforest : s.document.IsForest) : ∀ (t : Test)
    (stage : Option StageName) (previous : NodeId → Bool), t.Fits N stage →
    ∀ n, s.document.isElement n = true → t.apart.holds previous s n = t.holds previous s n
  | .check _, _, _, _, _, _ => rfl
  | .ranked _, _, _, _, _, _ => rfl
  | .all tests, stage, previous, ht, n, helem =>
    holdsAll_apart hforest tests stage previous ht n helem
  | .any tests, stage, previous, ht, n, helem =>
    holdsAny_apart hforest tests stage previous ht n helem
  | .related c _ left, _, previous, ⟨used, _, _, hleft⟩, n, _ =>
    Document.relates_congr (Test.holds_apart hforest left used previous hleft) c n
  | .anchored _ _, _, _, _, _, _ => rfl
  | .negation t, stage, previous, ht, n, helem => by
    rw [Test.apart, Test.holds, Test.holds, Test.holds_apart hforest t stage previous ht n helem]
  | .has _, _, previous, hc, _, helem => Compiled.findsApart_eq hforest hc helem previous
  | .fromParent selector, _, _, hc, n, helem => by
    rw [Test.apart, Test.holds, Test.holds]
    rw [Compiled.result_apart (s := s.withContext _) hforest selector hc [n] fun k hk =>
      List.mem_singleton.mp hk ▸ helem]

theorem holdsAll_apart {s : Scope} (hforest : s.document.IsForest) : ∀ (ts : List Test)
    (stage : Option StageName) (previous : NodeId → Bool), fitAll N ts stage →
    ∀ n, s.document.isElement n = true →
      holdsAll (apartTests ts) previous s n = holdsAll ts previous s n
  | [], _, _, _, _, _ => rfl
  | t :: rest, stage, previous, ⟨ht, hrest⟩, n, helem => by
    rw [apartTests, holdsAll, holdsAll, Test.holds_apart hforest t stage previous ht n helem,
      holdsAll_apart hforest rest stage previous hrest n helem]

theorem holdsAny_apart {s : Scope} (hforest : s.document.IsForest) : ∀ (ts : List Test)
    (stage : Option StageName) (previous : NodeId → Bool), fitAll N ts stage →
    ∀ n, s.document.isElement n = true →
      holdsAny (apartTests ts) previous s n = holdsAny ts previous s n
  | [], _, _, _, _, _ => rfl
  | t :: rest, stage, previous, ⟨ht, hrest⟩, n, helem => by
    rw [apartTests, holdsAny, holdsAny, Test.holds_apart hforest t stage previous ht n helem,
      holdsAny_apart hforest rest stage previous hrest n helem]

theorem SetMatcher.result_apart {s : Scope} (hforest : s.document.IsForest) : ∀ m : SetMatcher,
    m.Fits N → ∀ seed, (∀ n ∈ seed, s.document.isElement n = true) →
      m.apart.result s seed = m.result s seed
  | .rearrange _, _, _, _ => rfl
  | .members selector _, hm, seed, helem => by
    rw [SetMatcher.apart, SetMatcher.result, SetMatcher.result,
      Compiled.result_apart hforest selector hm seed helem]
  | .found selector, hm, seed, helem => Compiled.result_apart hforest selector hm seed helem
  | .apply matcher, hm, seed, helem => Matcher.result_apart hforest matcher hm seed helem

theorem Matcher.result_apart {s : Scope} (hforest : s.document.IsForest) : ∀ m : Matcher,
    m.Fits N → ∀ seed, (∀ n ∈ seed, s.document.isElement n = true) →
      m.apart.result s seed = m.result s seed
  | .test t, hm, seed, helem => by
    rw [Matcher.apart, Matcher.result, Matcher.result]
    exact List.filter_congr fun n hn => Test.holds_apart hforest t none _ hm n (helem n hn)
  | .set m, hm, seed, helem => SetMatcher.result_apart hforest m hm seed helem

theorem narrowed_apart {s : Scope} (hforest : s.document.IsForest) : ∀ ms : List Matcher,
    fitNarrowers N ms → ∀ found, (∀ n ∈ found, s.document.isElement n = true) →
      narrowed (apartMatchers ms) s found = narrowed ms s found
  | [], _, _, _ => rfl
  | m :: rest, ⟨hm, hrest⟩, found, helem => by
    rw [apartMatchers, narrowed, narrowed, Matcher.result_apart hforest m hm found helem,
      narrowed_apart hforest rest hrest _ fun n hn =>
        helem n (Matcher.result_subset s m found hm hn)]

theorem Stage.result_apart {s : Scope} (hforest : s.document.IsForest) : ∀ (stage : Stage)
    (name : Option StageName) (previous : NodeId → Bool), stage.Fits N name →
    ∀ source, (∀ n ∈ source, s.document.isElement n = true) →
      stage.apart.result previous s source = stage.result previous s source
  | .mk test narrowers, name, previous, ⟨ht, hms⟩, source, helem => by
    have hkept : (source.filter fun n => test.apart.holds previous s n) =
        source.filter fun n => test.holds previous s n :=
      List.filter_congr fun n hn => Test.holds_apart hforest test name previous ht n (helem n hn)
    rw [Stage.apart, Stage.result, Stage.result, hkept,
      narrowed_apart hforest narrowers hms _ fun n hn => helem n (List.mem_filter.mp hn).1]

theorem stageMembers_apart {s : Scope} (hforest : s.document.IsForest) (plan : MatcherId) :
    ∀ (stages : List Stage) (index : Nat) (name : Option StageName) (previous : NodeId → Bool),
      fitStages N plan stages index name →
      ∀ population, (∀ n ∈ population, s.document.isElement n = true) →
        stageMembers (apartStages stages) previous s population =
          stageMembers stages previous s population
  | [], _, _, _, _, _, _ => rfl
  | stage :: rest, index, name, previous, ⟨hs, hrest⟩, population, helem => by
    rw [apartStages, stageMembers, stageMembers,
      Stage.result_apart hforest stage name previous hs population helem,
      stageMembers_apart hforest plan rest (index + 1) _ _ hrest population helem]

theorem Plan.result_apart {s : Scope} (hforest : s.document.IsForest) : ∀ plan : Plan,
    plan.Fits N → ∀ pool, (∀ n ∈ pool, s.document.isElement n = true) →
      plan.apart.result s pool = plan.result s pool
  | .mk id stages last siblingLed, ⟨_, hstages, hlast⟩, pool, helem => by
    rw [Plan.apart, Plan.result, Plan.result,
      stageMembers_apart hforest id stages 0 none _ hstages _ fun n hn =>
        Scope.isElement_of_population hn,
      Stage.result_apart hforest last _ _ hlast pool helem]

theorem planResults_apart {s : Scope} (hforest : s.document.IsForest) : ∀ plans : List Plan,
    fitPlans N plans → ∀ pool, (∀ n ∈ pool, s.document.isElement n = true) →
      planResults (apartPlans plans) s pool = planResults plans s pool
  | [], _, _, _ => rfl
  | plan :: rest, ⟨hp, hrest⟩, pool, helem => by
    rw [apartPlans, planResults, planResults, Plan.result_apart hforest plan hp pool helem,
      planResults_apart hforest rest hrest pool helem]

theorem Compiled.result_apart {s : Scope} (hforest : s.document.IsForest) : ∀ c : Compiled,
    c.Fits N → ∀ pool, (∀ n ∈ pool, s.document.isElement n = true) →
      c.apart.result s pool = c.result s pool
  | .mk _ test plans, ⟨ht, hplans⟩, pool, helem => by
    rw [Compiled.apart, Compiled.result, Compiled.result, passing_apart hforest test ht pool helem,
      planResults_apart hforest plans hplans pool helem]

theorem passing_apart {s : Scope} (hforest : s.document.IsForest) : ∀ t : Option Test,
    fitTest N t → ∀ pool, (∀ n ∈ pool, s.document.isElement n = true) →
      passing (apartTest t) s pool = passing t s pool
  | none, _, _, _ => rfl
  | some t, ht, pool, helem => by
    rw [apartTest, passing, passing]
    exact List.filter_congr fun n hn => Test.holds_apart hforest t none _ ht n (helem n hn)

end

/-- An execution gives the same whether or not it shares its memo with the queries nested in it. -/
theorem Compiled.execute_apart {c : Compiled} (hc : c.Fits N) {s : Scope}
    (hforest : s.document.IsForest) {pool : List NodeId}
    (helem : ∀ n ∈ pool, s.document.isElement n = true) {m : Memo} (hm : m.Valid) :
    (c.apart.execute s pool m).1 = (c.execute s pool m).1 := by
  rw [(execute_gives c.apart s hforest hc.apart pool helem m hm).1,
    (execute_gives c s hforest hc pool helem m hm).1]
  exact result_apart hforest c hc pool helem

lemma Compiled.anyMatch_apart {c : Compiled} (hc : c.Fits N) {s : Scope}
    (hforest : s.document.IsForest) {pool : List NodeId}
    (helem : ∀ n ∈ pool, s.document.isElement n = true) {m : Memo} (hm : m.Valid) :
    (c.apart.anyMatch s pool m).1 = (c.anyMatch s pool m).1 := by
  rw [(anyMatch_gives c.apart s hforest hc.apart pool helem m hm).1,
    (anyMatch_gives c s hforest hc pool helem m hm).1, result_apart hforest c hc pool helem]

end

end TreeQuery
