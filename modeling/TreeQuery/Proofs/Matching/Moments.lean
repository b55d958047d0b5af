import TreeQuery.Proofs.Matching.Soundness

/-!
# Moments of an execution

What matching comes to on its way, each time with the scope and the memo that it has there. At every
moment within an execution the memo agrees with it, while walks are open and plans half run.
-/

namespace TreeQuery

/-- A computation that matching comes to. -/
inductive Call where
  | eval (t : Test) (n : NodeId)
  | evalAll (tests : List Test) (n : NodeId)
  | evalAny (tests : List Test) (n : NodeId)
  | walk (c : Combinator) (id : MatcherId) (left : Test) (cell : Option Nat) (bound : Nat)
      (next : Option NodeId)
  | filter (t : Test) (pool : List NodeId)
  | search (t : Test) (pool : List NodeId)
  | set (m : SetMatcher) (seed : List NodeId)
  | matcher (m : Matcher) (seed : List NodeId)
  | narrow (matchers : List Matcher) (found : List NodeId)
  | stage (stage : Stage) (source : List NodeId)
  | stages (rest : List Stage) (id : MatcherId) (index : Nat) (population : List NodeId)
  | plan (plan : Plan) (pool : List NodeId)
  | plans (plans : List Plan) (pool : List NodeId)
  | execute (selector : Compiled) (pool : List NodeId)
  | anyMatch (selector : Compiled) (pool : List NodeId)

structure Moment where
  scope : Scope
  call : Call
  memo : Memo

/-- What a walk leaves on an element that it asks. -/
def Memo.marked (m : Memo) (n : NodeId) (direction : Direction) (id : MatcherId) :
    Option Nat → Memo
  | some cell => m.stamp n direction id cell
  | none => m

/-- Whether a walk with a cell may take its outcome from an element. -/
def Memo.Knows (m : Memo) (n : NodeId) (direction : Direction) (id : MatcherId)
    (cell : Option Nat) : Prop :=
  cell.isSome = true ∧ (m.outcome? n direction id).isSome = true

namespace Moment

/-- Whether matching comes from one moment to another, next or after what it does before. -/
inductive Leads : Moment → Moment → Prop where
  | all {s m tests n} : Leads ⟨s, .eval (.all tests) n, m⟩ ⟨s, .evalAll tests n, m⟩
  | any {s m tests n} : Leads ⟨s, .eval (.any tests) n, m⟩ ⟨s, .evalAny tests n, m⟩
  | negation {s m t n} : Leads ⟨s, .eval (.negation t) n, m⟩ ⟨s, .eval t n, m⟩
  | direct {s m c id left n k} : c.isDirect = true → s.document.stepTo c.direction n = some k →
      Leads ⟨s, .eval (.related c id left) n, m⟩ ⟨s, .eval left k, m⟩
  | remembered {s m c id left n} : c.isDirect = false → m.walkCache = true →
      Leads ⟨s, .eval (.related c id left) n, m⟩
        ⟨s, .walk c id left (some m.openCell.1) s.document.size (s.document.stepTo c.direction n),
          m.openCell.2⟩
  | forgetful {s m c id left n} : c.isDirect = false → m.walkCache = false →
      Leads ⟨s, .eval (.related c id left) n, m⟩
        ⟨s, .walk c id left none s.document.size (s.document.stepTo c.direction n), m⟩
  | has {s m selector n} :
      (s.document.descendantElements (selector.searchRoot s.document n)).isEmpty = false →
      Leads ⟨s, .eval (.has selector) n, m⟩
        ⟨s.withContext n, .anyMatch selector
          (s.document.descendantElements (selector.searchRoot s.document n)), m⟩
  | fromParent {s m selector n} :
      Leads ⟨s, .eval (.fromParent selector) n, m⟩
        ⟨s.withContext ((s.document.parent n).getD n), .anyMatch selector [n], m⟩
  | allRest {s m t rest n} : Leads ⟨s, .evalAll (t :: rest) n, m⟩ ⟨s, .evalAll rest n, m⟩
  | allFirst {s m t rest n} : (evalAll rest s n m).1 = true →
      Leads ⟨s, .evalAll (t :: rest) n, m⟩ ⟨s, .eval t n, (evalAll rest s n m).2⟩
  | anyFirst {s m t rest n} : Leads ⟨s, .evalAny (t :: rest) n, m⟩ ⟨s, .eval t n, m⟩
  | anyRest {s m t rest n} : (t.eval s n m).1 = false →
      Leads ⟨s, .evalAny (t :: rest) n, m⟩ ⟨s, .evalAny rest n, (t.eval s n m).2⟩
  | walkAsks {s m c id left cell bound n} : ¬ m.Knows n c.direction id cell →
      Leads ⟨s, .walk c id left cell (bound + 1) (some n), m⟩
        ⟨s, .eval left n, m.marked n c.direction id cell⟩
  | walkOn {s m c id left cell bound n} : ¬ m.Knows n c.direction id cell →
      (left.eval s n (m.marked n c.direction id cell)).1 = false →
      Leads ⟨s, .walk c id left cell (bound + 1) (some n), m⟩
        ⟨s, .walk c id left cell bound (s.document.stepTo c.direction n),
          (left.eval s n (m.marked n c.direction id cell)).2⟩
  | filterFirst {s m t n rest} : Leads ⟨s, .filter t (n :: rest), m⟩ ⟨s, .eval t n, m⟩
  | filterRest {s m t n rest} :
      Leads ⟨s, .filter t (n :: rest), m⟩ ⟨s, .filter t rest, (t.eval s n m).2⟩
  | searchFirst {s m t n rest} : Leads ⟨s, .search t (n :: rest), m⟩ ⟨s, .eval t n, m⟩
  | searchRest {s m t n rest} : (t.eval s n m).1 = false →
      Leads ⟨s, .search t (n :: rest), m⟩ ⟨s, .search t rest, (t.eval s n m).2⟩
  | members {s m selector kept seed} :
      Leads ⟨s, .set (.members selector kept) seed, m⟩ ⟨s, .execute selector seed, m⟩
  | found {s m selector seed} :
      Leads ⟨s, .set (.found selector) seed, m⟩ ⟨s, .execute selector seed, m⟩
  | apply {s m matcher seed} :
      Leads ⟨s, .set (.apply matcher) seed, m⟩ ⟨s, .matcher matcher seed, m⟩
  | matcherTest {s m t seed} : Leads ⟨s, .matcher (.test t) seed, m⟩ ⟨s, .filter t seed, m⟩
  | matcherSet {s m set seed} : Leads ⟨s, .matcher (.set set) seed, m⟩ ⟨s, .set set seed, m⟩
  | narrowFirst {s m matcher rest found} : found.isEmpty = false →
      Leads ⟨s, .narrow (matcher :: rest) found, m⟩ ⟨s, .matcher matcher found, m⟩
  | narrowRest {s m matcher rest found} : found.isEmpty = false →
      Leads ⟨s, .narrow (matcher :: rest) found, m⟩
        ⟨s, .narrow rest (matcher.apply s found m).1, (matcher.apply s found m).2⟩
  | stageTest {s m test narrowers source} :
      Leads ⟨s, .stage (.mk test narrowers) source, m⟩ ⟨s, .filter test source, m⟩
  | stageNarrow {s m test narrowers source} :
      Leads ⟨s, .stage (.mk test narrowers) source, m⟩
        ⟨s, .narrow narrowers (source.filterM (test.eval s) m).1,
          (source.filterM (test.eval s) m).2⟩
  | stagesFirst {s m stage rest id index population} :
      Leads ⟨s, .stages (stage :: rest) id index population, m⟩ ⟨s, .stage stage population, m⟩
  | stagesRest {s m stage rest id index population} :
      Leads ⟨s, .stages (stage :: rest) id index population, m⟩
        ⟨s, .stages rest id (index + 1) population,
          (stage.run s population m).2.setAnchor id index (stage.run s population m).1⟩
  | planStages {s m id stages last siblingLed pool} :
      Leads ⟨s, .plan (.mk id stages last siblingLed) pool, m⟩
        ⟨s, .stages stages id 0 (s.population siblingLed pool), m⟩
  | planLast {s m id stages last siblingLed pool} :
      Leads ⟨s, .plan (.mk id stages last siblingLed) pool, m⟩
        ⟨s, .stage last pool, (runStages stages id 0 s (s.population siblingLed pool) m).2⟩
  | plansFirst {s m plan rest pool} :
      Leads ⟨s, .plans (plan :: rest) pool, m⟩ ⟨s, .plan plan pool, m⟩
  | plansRest {s m plan rest pool} :
      Leads ⟨s, .plans (plan :: rest) pool, m⟩ ⟨s, .plans rest pool, (plan.run s pool m).2⟩
  | executeTest {s m list t plans pool} :
      Leads ⟨s, .execute (.mk list (some t) plans) pool, m⟩ ⟨s, .filter t pool, m.bump⟩
  | executePlans {s m list test plans pool} :
      Leads ⟨s, .execute (.mk list test plans) pool, m⟩
        ⟨s, .plans plans pool, (evalPool test s pool m.bump).2⟩
  | anyMatchTest {s m list t pool} :
      Leads ⟨s, .anyMatch (.mk list (some t) []) pool, m⟩ ⟨s, .search t pool, m.bump⟩
  | anyMatchPlans {s m list test plan rest pool} :
      Leads ⟨s, .anyMatch (.mk list test (plan :: rest)) pool, m⟩
        ⟨s, .execute (.mk list test (plan :: rest)) pool, m⟩

/-- Whether matching comes from one moment to another. -/
abbrev ComesTo : Moment → Moment → Prop := Relation.ReflTransGen Leads

end Moment

/-- Whether a memo is ready for a computation in an execution. -/
def Call.Ready (N : Naming) (f : Frame) (m : Memo) : Call → Prop
  | .eval t n => f.scope.document.isElement n = true ∧
    ∃ previous, t.Fits N previous ∧ m.Ready N f (sizeOf t) previous
  | .evalAll tests n => f.scope.document.isElement n = true ∧
    ∃ previous, fitAll N tests previous ∧ m.Ready N f (sizeOf tests) previous
  | .evalAny tests n => f.scope.document.isElement n = true ∧
    ∃ previous, fitAll N tests previous ∧ m.Ready N f (sizeOf tests) previous
  | .walk c id left cell bound next => (∀ n, next = some n → f.scope.document.isElement n = true) ∧
    Ends (f.scope.document.stepTo c.direction) bound next ∧
    (∀ place, cell = some place → m.cells[place]? = some none) ∧
    ∃ used, N id = some (.walk left used) ∧ left.Fits N used ∧ m.Ready N f (sizeOf left) used
  | .filter t pool => (∀ n ∈ pool, f.scope.document.isElement n = true) ∧
    ∃ previous, t.Fits N previous ∧ m.Ready N f (sizeOf t) previous
  | .search t pool => (∀ n ∈ pool, f.scope.document.isElement n = true) ∧
    ∃ previous, t.Fits N previous ∧ m.Ready N f (sizeOf t) previous
  | .set x seed => (∀ n ∈ seed, f.scope.document.isElement n = true) ∧ x.Fits N ∧
    m.Ready N f 0 none
  | .matcher x seed => (∀ n ∈ seed, f.scope.document.isElement n = true) ∧ x.Fits N ∧
    m.Ready N f 0 none
  | .narrow matchers found => (∀ n ∈ found, f.scope.document.isElement n = true) ∧
    fitNarrowers N matchers ∧ m.Ready N f 0 none
  | .stage x source => (∀ n ∈ source, f.scope.document.isElement n = true) ∧
    ∃ previous, x.Fits N previous ∧ m.Ready N f (sizeOf x) previous
  | .stages rest id index population => ∃ stages done last siblingLed bound,
    N id = some (.plan (.mk id stages last siblingLed)) ∧ sizeOf stages ≤ bound ∧
    bound < sizeOf (Plan.mk id stages last siblingLed) ∧ stages = done ++ rest ∧
    index = done.length ∧ fitStages N id rest index (lastStage id index) ∧
    population = f.scope.population siblingLed f.pool ∧ m.Ready N f bound (lastStage id index)
  | .plan x pool => pool = f.pool ∧ (∀ n ∈ pool, f.scope.document.isElement n = true) ∧
    x.Fits N ∧ m.Ready N f 0 none
  | .plans rest pool => pool = f.pool ∧ (∀ n ∈ pool, f.scope.document.isElement n = true) ∧
    fitPlans N rest ∧ m.Ready N f 0 none
  | .execute selector pool => (∀ n ∈ pool, f.scope.document.isElement n = true) ∧
    selector.Fits N ∧ m.Valid
  | .anyMatch selector pool => (∀ n ∈ pool, f.scope.document.isElement n = true) ∧
    selector.Fits N ∧ m.Valid

lemma Memo.Ready.atMost {N : Naming} {f : Frame} {bound larger : Nat} {m : Memo}
    (h : m.Ready N f bound none) : m.Ready N f larger none :=
  ⟨h.valid, h.agrees, by simp⟩

lemma Memo.Ready.marked {N : Naming} {f : Frame} {bound : Nat} {previous : Option StageName}
    {m : Memo} (h : m.Ready N f bound previous) {cell : Option Nat}
    (hopen : ∀ place, cell = some place → m.cells[place]? = some none) (n : NodeId)
    (direction : Direction) (id : MatcherId) :
    (m.marked n direction id cell).Ready N f bound previous := by
  cases cell with
  | none => exact h
  | some place => exact h.stamp (hopen place rfl) n direction id

lemma Memo.cells_marked (m : Memo) (n : NodeId) (direction : Direction) (id : MatcherId)
    (cell : Option Nat) : (m.marked n direction id cell).cells = m.cells := by
  cases cell <;> rfl

/-- What holds at every moment of an execution. -/
def Moment.Ready (N : Naming) (moment : Moment) : Prop :=
  moment.scope.document.IsForest ∧ ∃ pool, moment.call.Ready N ⟨moment.scope, pool⟩ moment.memo

lemma Moment.Leads.ready {N : Naming} {a b : Moment} (h : a.Leads b) (ha : a.Ready N) :
    b.Ready N := by
  obtain ⟨hforest, pool, ha⟩ := ha
  cases h with
  | all | any | negation =>
    obtain ⟨helem, previous, ht, hready⟩ := ha
    exact ⟨hforest, pool, helem, previous, ht, hready.mono (by simp)⟩
  | direct hdirect hstep =>
    obtain ⟨-, previous, ⟨used, hused, -, hleft⟩, hready⟩ := ha
    refine ⟨hforest, pool, Document.isElement_of_stepTo hstep, used, hleft, ?_⟩
    exact (hready.used hused).mono (by simp)
  | @remembered s m c id left n hdirect hcache =>
    obtain ⟨-, previous, ⟨used, hused, hid, hleft⟩, hready⟩ := ha
    refine ⟨hforest, pool, fun k hk => Document.isElement_of_stepTo hk,
      hforest.ends_step c.direction n, fun place hplace => ?_, used, hid, hleft, ?_⟩
    · obtain rfl := Option.some.inj hplace
      exact m.getElem?_openCell
    · exact ((hready.used hused).mono (by simp)).openCell
  | @forgetful s m c id left n hdirect hcache =>
    obtain ⟨-, previous, ⟨used, hused, hid, hleft⟩, hready⟩ := ha
    refine ⟨hforest, pool, fun k hk => Document.isElement_of_stepTo hk,
      hforest.ends_step c.direction n, fun place hplace => by simp at hplace, used, hid, hleft, ?_⟩
    exact (hready.used hused).mono (by simp)
  | has hsome =>
    obtain ⟨-, previous, hc, hready⟩ := ha
    exact ⟨hforest, pool, fun k hk => Document.isElement_of_descendantElements hk, hc, hready.valid⟩
  | fromParent =>
    obtain ⟨helem, previous, hc, hready⟩ := ha
    exact ⟨hforest, pool, fun k hk => List.mem_singleton.mp hk ▸ helem, hc, hready.valid⟩
  | allRest =>
    obtain ⟨helem, previous, ⟨-, hrest⟩, hready⟩ := ha
    exact ⟨hforest, pool, helem, previous, hrest, hready.mono (by simp)⟩
  | @allFirst s m t rest n hholds =>
    -- tests are asked from the last one, so the others have run when the first one is asked
    obtain ⟨helem, previous, ⟨ht, hrest⟩, hready⟩ := ha
    have hgives := evalAll_gives rest ⟨s, pool⟩ previous hforest hrest n helem
    obtain ⟨-, -, hready⟩ := hgives.mono (by simp : _ ≤ sizeOf (t :: rest)) m hready
    exact ⟨hforest, pool, helem, previous, ht, hready.mono (by simp; omega)⟩
  | anyFirst =>
    obtain ⟨helem, previous, ⟨ht, -⟩, hready⟩ := ha
    exact ⟨hforest, pool, helem, previous, ht, hready.mono (by simp; omega)⟩
  | @anyRest s m t rest n hfails =>
    obtain ⟨helem, previous, ⟨ht, hrest⟩, hready⟩ := ha
    have hgives := Test.eval_gives t ⟨s, pool⟩ previous hforest ht n helem
    obtain ⟨-, -, hready⟩ := hgives.mono (by simp; omega : _ ≤ sizeOf (t :: rest)) m hready
    exact ⟨hforest, pool, helem, previous, hrest, hready.mono (by simp)⟩
  | @walkAsks s m c id left cell bound n hunknown =>
    obtain ⟨helem, -, hopen, used, -, hleft, hready⟩ := ha
    exact ⟨hforest, pool, helem n rfl, used, hleft, hready.marked hopen n c.direction id⟩
  | @walkOn s m c id left cell bound n hunknown hfails =>
    obtain ⟨helem, hends, hopen, used, hid, hleft, hready⟩ := ha
    have hgives := Test.eval_gives left ⟨s, pool⟩ used hforest hleft n (helem n rfl)
    obtain ⟨-, hev, hready⟩ := hgives _ (hready.marked hopen n c.direction id)
    refine ⟨hforest, pool, fun k hk => Document.isElement_of_stepTo hk, hends.next_succ,
      fun place hplace => ?_, used, hid, hleft, hready⟩
    have hlt : place < m.cells.size := (Array.getElem?_eq_some_iff.mp (hopen place hplace)).1
    rw [hev.cells (by rwa [Memo.cells_marked]), Memo.cells_marked]
    exact hopen place hplace
  | filterFirst | searchFirst =>
    obtain ⟨helem, previous, ht, hready⟩ := ha
    exact ⟨hforest, pool, helem _ List.mem_cons_self, previous, ht, hready⟩
  | @filterRest s m t n rest | @searchRest s m t n rest =>
    obtain ⟨helem, previous, ht, hready⟩ := ha
    have hgives := Test.eval_gives t ⟨s, pool⟩ previous hforest ht n (helem n List.mem_cons_self)
    obtain ⟨-, -, hready⟩ := hgives m hready
    exact ⟨hforest, pool, fun k hk => helem k (List.mem_cons_of_mem n hk), previous, ht, hready⟩
  | members | found =>
    obtain ⟨helem, hc, hready⟩ := ha
    exact ⟨hforest, pool, helem, hc, hready.valid⟩
  | apply | matcherSet =>
    obtain ⟨helem, hm, hready⟩ := ha
    exact ⟨hforest, pool, helem, hm, hready⟩
  | matcherTest =>
    obtain ⟨helem, ht, hready⟩ := ha
    exact ⟨hforest, pool, helem, none, ht, hready.atMost⟩
  | narrowFirst hsome =>
    obtain ⟨helem, ⟨hm, -⟩, hready⟩ := ha
    exact ⟨hforest, pool, helem, hm, hready⟩
  | @narrowRest s m matcher rest found hsome =>
    obtain ⟨helem, ⟨hm, hrest⟩, hready⟩ := ha
    have hgives := Matcher.apply_gives matcher ⟨s, pool⟩ hforest hm found helem
    obtain ⟨hvalue, -, hready⟩ := hgives m hready.atMost
    refine ⟨hforest, pool, fun k hk => helem k ?_, hrest, hready.atMost⟩
    rw [hvalue] at hk
    exact Matcher.result_subset s matcher found hm hk
  | stageTest =>
    obtain ⟨helem, previous, ⟨ht, -⟩, hready⟩ := ha
    exact ⟨hforest, pool, helem, previous, ht, hready.mono (by simp; omega)⟩
  | @stageNarrow s m test narrowers source =>
    obtain ⟨helem, previous, ⟨ht, hms⟩, hready⟩ := ha
    have hgives : Run.Gives N ⟨s, pool⟩ (sizeOf test) previous (source.filterM (test.eval s))
        (source.filter fun n => test.holds (N.members ⟨s, pool⟩ previous) s n) :=
      Run.Gives.filterM fun n hn => Test.eval_gives test ⟨s, pool⟩ previous hforest ht n (helem n hn)
    obtain ⟨hvalue, -, hready⟩ := hgives m (hready.mono (by simp; omega))
    refine ⟨hforest, pool, fun k hk => helem k ?_, hms, hready.closed.atMost⟩
    rw [hvalue] at hk
    exact (List.mem_filter.mp hk).1
  | @stagesFirst s m stage rest id index population =>
    obtain ⟨stages, done, last, siblingLed, bound, -, hle, -, heq, -, ⟨hs, -⟩, hpopulation,
      hready⟩ := ha
    dsimp only at hpopulation
    subst hpopulation
    have hstage : sizeOf stage < sizeOf stages := List.sizeOf_lt_of_mem (heq ▸ by simp)
    exact ⟨hforest, pool, fun k hk => Scope.isElement_of_population hk, _, hs,
      hready.mono (by omega)⟩
  | @stagesRest s m stage rest id index population =>
    obtain ⟨stages, done, last, siblingLed, bound, hid, hle, hlt, heq, rfl, ⟨hs, hrest⟩,
      hpopulation, hready⟩ := ha
    dsimp only at hpopulation
    subst hpopulation
    have hstage : sizeOf stage < sizeOf stages := List.sizeOf_lt_of_mem (heq ▸ by simp)
    have hgives := (Stage.run_gives stage ⟨s, pool⟩ _ hforest hs (s.population siblingLed pool)
      fun n hn => Scope.isElement_of_population hn).mono (by omega : sizeOf stage ≤ bound)
    -- what the stage has found stands in its anchor, where the next one looks for it
    obtain ⟨-, hready⟩ := Stage.publishes hid hlt heq hgives hready
    exact ⟨hforest, pool, stages, done ++ [stage], last, siblingLed, bound, hid, hle, hlt,
      by simp [heq], by simp, hrest, rfl, hready⟩
  | @planStages s m id stages last siblingLed pool' =>
    obtain ⟨rfl, -, ⟨hid, hstages, -⟩, hready⟩ := ha
    exact ⟨hforest, pool', stages, [], last, siblingLed, sizeOf stages, hid, Nat.le_refl _,
      by simp; omega, rfl, rfl, hstages, rfl, hready.atMost⟩
  | @planLast s m id stages last siblingLed pool' =>
    obtain ⟨rfl, helem, ⟨hid, hstages, hlast⟩, hready⟩ := ha
    have hlt : sizeOf stages + sizeOf last < sizeOf (Plan.mk id stages last siblingLed) := by
      simp only [Plan.mk.sizeOf_spec]
      omega
    obtain ⟨-, hready⟩ := runStages_publishes stages ⟨s, pool'⟩ _ id stages [] last siblingLed
      hforest hid (Nat.le_add_right _ _) hlt rfl hstages m hready.atMost
    exact ⟨hforest, pool', helem, _, hlast, hready.mono (Nat.le_add_left _ _)⟩
  | plansFirst =>
    obtain ⟨hpool, helem, ⟨hp, -⟩, hready⟩ := ha
    exact ⟨hforest, pool, hpool, helem, hp, hready⟩
  | @plansRest s m plan rest pool' =>
    obtain ⟨rfl, helem, ⟨hp, hrest⟩, hready⟩ := ha
    obtain ⟨-, -, hready⟩ := Plan.run_gives plan ⟨s, pool'⟩ hforest hp helem m hready.atMost
    exact ⟨hforest, pool', rfl, helem, hrest, hready.atMost⟩
  | executeTest | anyMatchTest =>
    obtain ⟨helem, ⟨ht, -⟩, hvalid⟩ := ha
    exact ⟨hforest, pool, helem, none, ht, hvalid.forgotten_bump.ready hvalid.bump⟩
  | @executePlans s m list test plans pool' =>
    obtain ⟨helem, ⟨ht, hplans⟩, hvalid⟩ := ha
    have hstart : m.bump.Ready N ⟨s, pool'⟩ (sizeOf test) none :=
      hvalid.forgotten_bump.ready hvalid.bump
    obtain ⟨-, -, hready⟩ := evalPool_gives test ⟨s, pool'⟩ hforest ht helem _ hstart
    exact ⟨hforest, pool', rfl, helem, hplans, hready.atMost⟩
  | anyMatchPlans =>
    obtain ⟨helem, hc, hvalid⟩ := ha
    exact ⟨hforest, pool, helem, hc, hvalid⟩

lemma Moment.ComesTo.ready {N : Naming} {a b : Moment} (h : a.ComesTo b) (ha : a.Ready N) :
    b.Ready N := by
  induction h with
  | refl => exact ha
  | tail _ hstep ih => exact hstep.ready ih

lemma Memo.Ready.withWalkCache {N : Naming} {f : Frame} {bound : Nat}
    {previous : Option StageName} {m : Memo} (h : m.Ready N f bound previous) (walkCache : Bool) :
    ({ m with walkCache } : Memo).Ready N f bound previous where
  valid := ⟨h.valid.stamps_le, h.valid.cells_lt, h.valid.ranks_le⟩
  agrees := ⟨h.agrees.outcome, h.agrees.rank⟩
  published := h.published

/-- What a walk takes from an element is what it would find by walking on. -/
theorem Moment.Ready.outcome_eq_walk {N : Naming} {s : Scope} {c : Combinator} {id : MatcherId}
    {left : Test} {cell : Option Nat} {bound : Nat} {n : NodeId} {m : Memo} {found : Bool}
    (h : Moment.Ready N ⟨s, .walk c id left cell (bound + 1) (some n), m⟩)
    (hfound : m.outcome? n c.direction id = some found) :
    found = (Run.walk s.document c.direction id (left.eval s) none (bound + 1) (some n)
      { m with walkCache := false }).1 := by
  obtain ⟨hforest, pool, helem, hends, -, used, hid, hleft, hready⟩ := h
  have hwalk : Run.Gives N ⟨s, pool⟩ (sizeOf left) used
      (Run.walk s.document c.direction id (left.eval s) none (bound + 1) (some n))
      (N.outcome ⟨s, pool⟩ c.direction left used (some n)) :=
    Run.walk_gives hforest c.direction
      (fun k hk => Test.eval_gives left ⟨s, pool⟩ used hforest hleft k hk) hends helem
  obtain ⟨hvalue, -⟩ := hwalk _ (hready.withWalkCache false)
  exact (hready.agrees.outcome hfound hid).trans hvalue.symm

/-- Whether a call moves on to a new generation first. Its memo is still that of the computation
around it, which may look at another scope. -/
def Call.StartsAfresh : Call → Prop
  | .execute _ _ => True
  | .anyMatch _ _ => True
  | _ => False

/-- At a moment within an execution the memo is ready for any computation there. -/
theorem Moment.Ready.within {N : Naming} {s : Scope} {call : Call} {m : Memo}
    (h : Moment.Ready N ⟨s, call, m⟩) (hcall : ¬ call.StartsAfresh) :
    s.document.IsForest ∧ ∃ pool, ∀ bound, m.Ready N ⟨s, pool⟩ bound none := by
  obtain ⟨hforest, pool, h⟩ := h
  -- A stage that the moment may refer to is dropped, so that plans of any size may run.
  refine ⟨hforest, pool, fun bound => ?_⟩
  cases call with
  | eval | evalAll | evalAny | filter | search | stage =>
    obtain ⟨-, _, -, hready⟩ := h
    exact hready.closed.atMost
  | walk =>
    obtain ⟨-, -, -, _, -, -, hready⟩ := h
    exact hready.closed.atMost
  | set | matcher | narrow =>
    obtain ⟨-, -, hready⟩ := h
    exact hready.atMost
  | stages =>
    obtain ⟨_, _, _, _, _, -, -, -, -, -, -, -, hready⟩ := h
    exact hready.closed.atMost
  | plan | plans =>
    obtain ⟨-, -, -, hready⟩ := h
    exact hready.atMost
  | execute | anyMatch => exact absurd trivial hcall

end TreeQuery
