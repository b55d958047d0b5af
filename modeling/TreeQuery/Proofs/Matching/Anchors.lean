import TreeQuery.Proofs.Matching.Soundness

/-!
# Anchors of running plans

A plan that runs publishes the members of its stages under its name and withdraws them in the end.
All plans share one table, but those that run within another plan are parts of it and bear other
names. So a computation that comes to no plan that is running leaves the table as it found it.
-/

namespace TreeQuery

def Plan.id : Plan → MatcherId
  | .mk id _ _ _ => id

mutual

/-- The plans that the evaluation of a test may come to. -/
def Test.plans : Test → List Plan
  | .check _ => []
  | .ranked _ => []
  | .all tests => plansOfTests tests
  | .any tests => plansOfTests tests
  | .related _ _ left => left.plans
  | .anchored _ _ => []
  | .negation t => t.plans
  | .has selector => selector.plans
  | .fromParent selector => selector.plans

def plansOfTests : List Test → List Plan
  | [] => []
  | t :: rest => t.plans ++ plansOfTests rest

def SetMatcher.plans : SetMatcher → List Plan
  | .rearrange _ => []
  | .members selector _ => selector.plans
  | .found selector => selector.plans
  | .apply matcher => matcher.plans

def Matcher.plans : Matcher → List Plan
  | .test t => t.plans
  | .set m => m.plans

def plansOfMatchers : List Matcher → List Plan
  | [] => []
  | m :: rest => m.plans ++ plansOfMatchers rest

def Stage.plans : Stage → List Plan
  | .mk test narrowers => test.plans ++ plansOfMatchers narrowers

def plansOfStages : List Stage → List Plan
  | [] => []
  | stage :: rest => stage.plans ++ plansOfStages rest

/-- The plan itself and the plans within its stages. -/
def Plan.plans : Plan → List Plan
  | .mk id stages last siblingLed =>
    .mk id stages last siblingLed :: (plansOfStages stages ++ last.plans)

def plansOfPlans : List Plan → List Plan
  | [] => []
  | plan :: rest => plan.plans ++ plansOfPlans rest

def Compiled.plans : Compiled → List Plan
  | .mk _ test plans => plansOfTest test ++ plansOfPlans plans

def plansOfTest : Option Test → List Plan
  | none => []
  | some t => t.plans

end

section

variable {p : Plan}

mutual

theorem Test.sizeOf_lt_of_mem_plans : ∀ t : Test, p ∈ t.plans → sizeOf p < sizeOf t
  | .check _, h => nomatch h
  | .ranked _, h => nomatch h
  | .all tests, h => Nat.lt_of_lt_of_le (sizeOf_lt_of_mem_plansOfTests tests h) (by simp)
  | .any tests, h => Nat.lt_of_lt_of_le (sizeOf_lt_of_mem_plansOfTests tests h) (by simp)
  | .related _ _ left, h => Nat.lt_of_lt_of_le (Test.sizeOf_lt_of_mem_plans left h) (by simp)
  | .anchored _ _, h => nomatch h
  | .negation t, h => Nat.lt_of_lt_of_le (Test.sizeOf_lt_of_mem_plans t h) (by simp)
  | .has c, h => Nat.lt_of_lt_of_le (Compiled.sizeOf_lt_of_mem_plans c h) (by simp)
  | .fromParent c, h => Nat.lt_of_lt_of_le (Compiled.sizeOf_lt_of_mem_plans c h) (by simp)

theorem sizeOf_lt_of_mem_plansOfTests : ∀ ts : List Test, p ∈ plansOfTests ts →
    sizeOf p < sizeOf ts
  | [], h => nomatch h
  | t :: rest, h => by
    obtain h | h := List.mem_append.mp h
    · exact Nat.lt_of_lt_of_le (Test.sizeOf_lt_of_mem_plans t h) (by simp; omega)
    · exact Nat.lt_of_lt_of_le (sizeOf_lt_of_mem_plansOfTests rest h) (by simp)

theorem SetMatcher.sizeOf_lt_of_mem_plans : ∀ m : SetMatcher, p ∈ m.plans → sizeOf p < sizeOf m
  | .rearrange _, h => nomatch h
  | .members c _, h => Nat.lt_of_lt_of_le (Compiled.sizeOf_lt_of_mem_plans c h) (by simp; omega)
  | .found c, h => Nat.lt_of_lt_of_le (Compiled.sizeOf_lt_of_mem_plans c h) (by simp)
  | .apply m, h => Nat.lt_of_lt_of_le (Matcher.sizeOf_lt_of_mem_plans m h) (by simp)

theorem Matcher.sizeOf_lt_of_mem_plans : ∀ m : Matcher, p ∈ m.plans → sizeOf p < sizeOf m
  | .test t, h => Nat.lt_of_lt_of_le (Test.sizeOf_lt_of_mem_plans t h) (by simp)
  | .set m, h => Nat.lt_of_lt_of_le (SetMatcher.sizeOf_lt_of_mem_plans m h) (by simp)

theorem sizeOf_lt_of_mem_plansOfMatchers : ∀ ms : List Matcher, p ∈ plansOfMatchers ms →
    sizeOf p < sizeOf ms
  | [], h => nomatch h
  | m :: rest, h => by
    obtain h | h := List.mem_append.mp h
    · exact Nat.lt_of_lt_of_le (Matcher.sizeOf_lt_of_mem_plans m h) (by simp; omega)
    · exact Nat.lt_of_lt_of_le (sizeOf_lt_of_mem_plansOfMatchers rest h) (by simp)

theorem Stage.sizeOf_lt_of_mem_plans : ∀ stage : Stage, p ∈ stage.plans →
    sizeOf p < sizeOf stage
  | .mk test narrowers, h => by
    obtain h | h := List.mem_append.mp h
    · exact Nat.lt_of_lt_of_le (Test.sizeOf_lt_of_mem_plans test h) (by simp; omega)
    · exact Nat.lt_of_lt_of_le (sizeOf_lt_of_mem_plansOfMatchers narrowers h) (by simp)

theorem sizeOf_lt_of_mem_plansOfStages : ∀ stages : List Stage, p ∈ plansOfStages stages →
    sizeOf p < sizeOf stages
  | [], h => nomatch h
  | stage :: rest, h => by
    obtain h | h := List.mem_append.mp h
    · exact Nat.lt_of_lt_of_le (Stage.sizeOf_lt_of_mem_plans stage h) (by simp; omega)
    · exact Nat.lt_of_lt_of_le (sizeOf_lt_of_mem_plansOfStages rest h) (by simp)

theorem Plan.sizeOf_le_of_mem_plans : ∀ plan : Plan, p ∈ plan.plans → sizeOf p ≤ sizeOf plan
  | .mk id stages last siblingLed, h => by
    obtain rfl | h := List.mem_cons.mp h
    · exact Nat.le_refl _
    obtain h | h := List.mem_append.mp h
    · exact Nat.le_trans (Nat.le_of_lt (sizeOf_lt_of_mem_plansOfStages stages h)) (by simp; omega)
    · exact Nat.le_trans (Nat.le_of_lt (Stage.sizeOf_lt_of_mem_plans last h)) (by simp; omega)

theorem sizeOf_lt_of_mem_plansOfPlans : ∀ plans : List Plan, p ∈ plansOfPlans plans →
    sizeOf p < sizeOf plans
  | [], h => nomatch h
  | plan :: rest, h => by
    obtain h | h := List.mem_append.mp h
    · exact Nat.lt_of_le_of_lt (Plan.sizeOf_le_of_mem_plans plan h) (by simp; omega)
    · exact Nat.lt_of_lt_of_le (sizeOf_lt_of_mem_plansOfPlans rest h) (by simp)

theorem Compiled.sizeOf_lt_of_mem_plans : ∀ c : Compiled, p ∈ c.plans → sizeOf p < sizeOf c
  | .mk _ test plans, h => by
    obtain h | h := List.mem_append.mp h
    · exact Nat.lt_of_lt_of_le (sizeOf_lt_of_mem_plansOfTest test h) (by simp; omega)
    · exact Nat.lt_of_lt_of_le (sizeOf_lt_of_mem_plansOfPlans plans h) (by simp)

theorem sizeOf_lt_of_mem_plansOfTest : ∀ t : Option Test, p ∈ plansOfTest t →
    sizeOf p < sizeOf t
  | none, h => nomatch h
  | some t, h => Nat.lt_of_lt_of_le (Test.sizeOf_lt_of_mem_plans t h) (by simp)

end

end

/-- Whether plans bear different names. -/
def NamedApart (plans : List Plan) : Prop :=
  ∀ p ∈ plans, ∀ q ∈ plans, p.id = q.id → p = q

lemma NamedApart.mono {plans others : List Plan} (h : NamedApart plans)
    (hsub : others ⊆ plans) : NamedApart others :=
  fun p hp q hq => h p (hsub hp) q (hsub hq)

lemma Plan.stages_subset_plans (id : MatcherId) (stages : List Stage) (last : Stage)
    (siblingLed : Bool) : plansOfStages stages ⊆ (Plan.mk id stages last siblingLed).plans :=
  fun _ hq => List.mem_cons_of_mem _ (List.mem_append_left _ hq)

lemma Plan.last_subset_plans (id : MatcherId) (stages : List Stage) (last : Stage)
    (siblingLed : Bool) : last.plans ⊆ (Plan.mk id stages last siblingLed).plans :=
  fun _ hq => List.mem_cons_of_mem _ (List.mem_append_right _ hq)

/-- The plans within the stages of a plan do not bear its name. -/
theorem Plan.id_ne_of_mem {id : MatcherId} {stages : List Stage} {last : Stage}
    {siblingLed : Bool} (h : NamedApart (Plan.mk id stages last siblingLed).plans) {q : Plan}
    (hq : q ∈ plansOfStages stages ++ last.plans) : q.id ≠ id := by
  intro heq
  have hsame := h q (List.mem_cons_of_mem _ hq) _ List.mem_cons_self heq
  have hlt : sizeOf q < sizeOf (Plan.mk id stages last siblingLed) := by
    simp only [Plan.mk.sizeOf_spec]
    obtain hq | hq := List.mem_append.mp hq
    · have := sizeOf_lt_of_mem_plansOfStages stages hq
      omega
    · have := Stage.sizeOf_lt_of_mem_plans last hq
      omega
  rw [hsame] at hlt
  exact Nat.lt_irrefl _ hlt

namespace Memo

/-- Whether none of some plans is running: the table has no anchor of theirs. -/
def Idle (m : Memo) (plans : List Plan) : Prop :=
  ∀ p ∈ plans, ∀ entry ∈ m.anchors, entry.1.1 ≠ p.id

variable {m m' : Memo} {plans : List Plan} {id : MatcherId}

lemma Idle.mono {others : List Plan} (h : m.Idle plans) (hsub : others ⊆ plans) :
    m.Idle others :=
  fun p hp => h p (hsub hp)

lemma Idle.of_anchors (h : m.Idle plans) (hanchors : m'.anchors = m.anchors) :
    m'.Idle plans := by
  rw [Idle, hanchors]
  exact h

/-- Anchors of one plan only do not show that another one is running. -/
theorem Idle.of_clear (h : m.Idle plans) (hne : ∀ p ∈ plans, p.id ≠ id)
    (hclear : (m'.clearAnchors id).anchors = (m.clearAnchors id).anchors) : m'.Idle plans := by
  intro p hp entry hentry heq
  have hkept : entry ∈ (m'.clearAnchors id).anchors :=
    List.mem_filter.mpr ⟨hentry, by simpa [heq] using hne p hp⟩
  rw [hclear] at hkept
  exact h p hp entry (List.mem_filter.mp hkept).1 heq

lemma Idle.clearAnchors {plan : Plan} (h : m.Idle plans) (hplan : plan ∈ plans) :
    (m.clearAnchors plan.id).anchors = m.anchors := by
  refine List.filter_eq_self.mpr fun entry hentry => ?_
  simpa using h plan hplan entry hentry

lemma clearAnchors_setAnchor (m : Memo) (id : MatcherId) (index : Nat) (members : List NodeId) :
    ((m.setAnchor id index members).clearAnchors id).anchors = (m.clearAnchors id).anchors := by
  simp only [clearAnchors, setAnchor]
  rw [List.filter_cons_of_neg (by simp), List.filter_filter]
  refine List.filter_congr fun entry _ => ?_
  by_cases heq : entry.1.1 = id
  · simp [heq]
  · have hne : entry.1 ≠ (id, index) := fun h => heq (congrArg Prod.fst h)
    simp [heq, hne]

lemma anchors_bump (m : Memo) : m.bump.anchors = m.anchors := by
  unfold bump
  split <;> rfl

lemma anchors_siblingRank (m : Memo) (d : Document) (xml : Bool) (n : NodeId) :
    (m.siblingRank d xml n).2.anchors = m.anchors := by
  unfold siblingRank
  split
  · rfl
  · split <;> rfl

end Memo

namespace Run

/-- Whether a computation gives the table of anchors back as it got it, if none of some plans is
running when it starts. -/
def Restores {α : Type} (plans : List Plan) (r : Run α) : Prop :=
  ∀ m : Memo, m.Idle plans → (r m).2.anchors = m.anchors

namespace Restores

variable {plans : List Plan} {α β : Type}

lemma pure (a : α) : Restores plans (Pure.pure a) := fun _ _ => rfl

lemma of_anchors {r : Run α} (h : ∀ m, (r m).2.anchors = m.anchors) : Restores plans r :=
  fun m _ => h m

lemma bind {r : Run α} {g : α → Run β} (hr : Restores plans r)
    (hg : ∀ a, Restores plans (g a)) : Restores plans (r >>= g) := by
  intro m hm
  have hfirst := hr m hm
  rw [bind_apply]
  exact (hg _ _ (hm.of_anchors hfirst)).trans hfirst

lemma mono {others : List Plan} {r : Run α} (h : Restores others r) (hsub : others ⊆ plans) :
    Restores plans r :=
  fun m hm => h m (hm.mono hsub)

lemma filterM {p : NodeId → Run Bool} (hp : ∀ n, Restores plans (p n)) (xs : List NodeId) :
    Restores plans (xs.filterM p) := by
  have haux : ∀ kept : List NodeId, Restores plans (xs.filterAuxM p kept) := by
    induction xs with
    | nil => exact fun kept => pure kept
    | cons x xs ih => exact fun kept => (hp x).bind fun _ => ih _
  exact (haux []).bind fun _ => pure _

lemma anyM {p : NodeId → Run Bool} (hp : ∀ n, Restores plans (p n)) (xs : List NodeId) :
    Restores plans (xs.anyM p) := by
  induction xs with
  | nil => exact pure false
  | cons x xs ih =>
    refine (hp x).bind fun passed => ?_
    cases passed with
    | true => exact pure true
    | false => exact ih

lemma walk {accepts : NodeId → Run Bool} (haccepts : ∀ n, Restores plans (accepts n))
    (d : Document) (direction : Direction) (id : MatcherId) (cell : Option Nat) :
    ∀ (bound : Nat) (next : Option NodeId),
      Restores plans (Run.walk d direction id accepts cell bound next) := by
  intro bound
  induction bound with
  | zero => intro next; cases next <;> exact pure false
  | succ bound ih =>
    intro next
    cases next with
    | none => exact pure false
    | some n =>
      have hon : Restores plans (do
          if ← accepts n then Pure.pure true
          else Run.walk d direction id accepts cell bound (d.stepTo direction n)) := by
        refine (haccepts n).bind fun found => ?_
        cases found with
        | true => exact pure true
        | false => exact ih _
      intro m hm
      cases cell with
      | none => exact hon m hm
      | some cell =>
        cases hknown : m.outcome? n direction id with
        | some found => rw [walk_known hknown]
        | none =>
          rw [walk_unknown hknown]
          exact hon _ hm

lemma related {accepts : NodeId → Run Bool} (haccepts : ∀ n, Restores plans (accepts n))
    (d : Document) (c : Combinator) (id : MatcherId) (n : NodeId) :
    Restores plans (Run.related d c id accepts n) := by
  unfold Run.related
  dsimp only
  split
  · split
    · exact haccepts _
    · exact pure false
  · intro m hm
    rw [bind_apply, get_apply]
    dsimp only
    split
    · exact (walk haccepts d c.direction id _ d.size _) m.openCell.2 hm
    · exact (walk haccepts d c.direction id none d.size _) m hm

lemma ranked (s : Scope) (p : StructuralPosition) (n : NodeId) :
    Restores plans (Run.ranked s p n) := by
  unfold Run.ranked
  split
  · exact pure _
  · refine Restores.bind (of_anchors fun m => m.anchors_siblingRank s.document s.xml n)
      fun rank => ?_
    cases rank <;> exact pure _

lemma bracketed {r : Run α} (hr : Restores plans r) : Restores plans (Run.bracketed r) := by
  have hbump : Restores plans (modify Memo.bump : Run PUnit) := of_anchors Memo.anchors_bump
  exact hbump.bind fun _ => hr.bind fun _ => hbump.bind fun _ => pure _

lemma gather (h : Host) {tested : Run (List NodeId)} {planned : Run (List (List NodeId))}
    (htested : Restores plans tested) (hplanned : Restores plans planned) :
    Restores plans (Run.gather h tested planned) :=
  (bracketed (htested.bind fun _ => hplanned.bind fun _ => pure _)).bind fun _ => pure _

end Restores

end Run

section

open Run

mutual

theorem Test.eval_restores : ∀ (t : Test) (s : Scope), NamedApart t.plans →
    ∀ n, Restores t.plans (t.eval s n)
  | .check _, _, _, _ => .pure _
  | .ranked p, s, _, n => .ranked s p n
  | .all tests, s, h, n => evalAll_restores tests s h n
  | .any tests, s, h, n => evalAny_restores tests s h n
  | .related c id left, s, h, n => .related (Test.eval_restores left s h) s.document c id n
  | .anchored _ _, _, _, _ => .of_anchors fun _ => rfl
  | .negation t, s, h, n => (Test.eval_restores t s h n).bind fun _ => .pure _
  | .has selector, s, h, n => by
    rw [Test.eval]
    split
    · exact .pure false
    · exact Compiled.anyMatch_restores selector (s.withContext n) h _
  | .fromParent selector, s, h, n =>
    Compiled.anyMatch_restores selector (s.withContext ((s.document.parent n).getD n)) h [n]

theorem evalAll_restores : ∀ (ts : List Test) (s : Scope), NamedApart (plansOfTests ts) →
    ∀ n, Restores (plansOfTests ts) (evalAll ts s n)
  | [], _, _, _ => .pure true
  | t :: rest, s, h, n => by
    have hfirst := List.subset_append_left t.plans (plansOfTests rest)
    have hrest := List.subset_append_right t.plans (plansOfTests rest)
    rw [evalAll]
    refine ((evalAll_restores rest s (h.mono hrest) n).mono hrest).bind fun passed => ?_
    split
    · exact (Test.eval_restores t s (h.mono hfirst) n).mono hfirst
    · exact .pure false

theorem evalAny_restores : ∀ (ts : List Test) (s : Scope), NamedApart (plansOfTests ts) →
    ∀ n, Restores (plansOfTests ts) (evalAny ts s n)
  | [], _, _, _ => .pure false
  | t :: rest, s, h, n => by
    have hfirst := List.subset_append_left t.plans (plansOfTests rest)
    have hrest := List.subset_append_right t.plans (plansOfTests rest)
    rw [evalAny]
    refine ((Test.eval_restores t s (h.mono hfirst) n).mono hfirst).bind fun passed => ?_
    split
    · exact .pure true
    · exact (evalAny_restores rest s (h.mono hrest) n).mono hrest

theorem SetMatcher.run_restores : ∀ (m : SetMatcher) (s : Scope), NamedApart m.plans →
    ∀ seed, Restores m.plans (m.run s seed)
  | .rearrange _, _, _, _ => .pure _
  | .members selector _, s, h, seed =>
    (Compiled.execute_restores selector s h seed).bind fun _ => .pure _
  | .found selector, s, h, seed => Compiled.execute_restores selector s h seed
  | .apply matcher, s, h, seed => Matcher.apply_restores matcher s h seed

theorem Matcher.apply_restores : ∀ (m : Matcher) (s : Scope), NamedApart m.plans →
    ∀ seed, Restores m.plans (m.apply s seed)
  | .test t, s, h, seed => .filterM (Test.eval_restores t s h) seed
  | .set m, s, h, seed => SetMatcher.run_restores m s h seed

theorem narrow_restores : ∀ (ms : List Matcher) (s : Scope), NamedApart (plansOfMatchers ms) →
    ∀ found, Restores (plansOfMatchers ms) (narrow ms s found)
  | [], _, _, _ => .pure _
  | m :: rest, s, h, found => by
    have hfirst := List.subset_append_left m.plans (plansOfMatchers rest)
    have hrest := List.subset_append_right m.plans (plansOfMatchers rest)
    rw [narrow]
    split
    · exact .pure _
    · refine ((Matcher.apply_restores m s (h.mono hfirst) found).mono hfirst).bind fun kept => ?_
      exact (narrow_restores rest s (h.mono hrest) kept).mono hrest

theorem Stage.run_restores : ∀ (stage : Stage) (s : Scope), NamedApart stage.plans →
    ∀ source, Restores stage.plans (stage.run s source)
  | .mk test narrowers, s, h, source => by
    have htest := List.subset_append_left test.plans (plansOfMatchers narrowers)
    have hnarrowers := List.subset_append_right test.plans (plansOfMatchers narrowers)
    rw [Stage.run]
    have hasks := Test.eval_restores test s (h.mono htest)
    refine ((Restores.filterM hasks source).mono htest).bind fun found => ?_
    exact (narrow_restores narrowers s (h.mono hnarrowers) found).mono hnarrowers

/-- The stages of a plan add anchors of that plan only. -/
theorem runStages_clear : ∀ (rest : List Stage) (id : MatcherId) (index : Nat) (s : Scope)
    (population : List NodeId) (m : Memo), NamedApart (plansOfStages rest) →
    (∀ q ∈ plansOfStages rest, q.id ≠ id) → m.Idle (plansOfStages rest) →
    ((runStages rest id index s population m).2.clearAnchors id).anchors =
      (m.clearAnchors id).anchors
  | [], _, _, _, _, _, _, _, _ => rfl
  | stage :: rest, id, index, s, population, m, h, hne, hidle => by
    have hfirst := List.subset_append_left stage.plans (plansOfStages rest)
    have hrest := List.subset_append_right stage.plans (plansOfStages rest)
    have hstage := Stage.run_restores stage s (h.mono hfirst) population m (hidle.mono hfirst)
    have hpublished : (((stage.run s population m).2.setAnchor id index
        (stage.run s population m).1).clearAnchors id).anchors = (m.clearAnchors id).anchors := by
      rw [Memo.clearAnchors_setAnchor, Memo.clearAnchors, hstage]
      rfl
    have hstill := (hidle.mono hrest).of_clear (fun q hq => hne q (hrest hq)) hpublished
    rw [runStages]
    exact (runStages_clear rest id (index + 1) s population _ (h.mono hrest)
      (fun q hq => hne q (hrest hq)) hstill).trans hpublished

theorem Plan.run_restores : ∀ (plan : Plan) (s : Scope), NamedApart plan.plans →
    ∀ pool, Restores plan.plans (plan.run s pool)
  | .mk id stages last siblingLed, s, h, pool => by
    intro m hm
    have hstages := Plan.stages_subset_plans id stages last siblingLed
    have hlast := Plan.last_subset_plans id stages last siblingLed
    have hclear := runStages_clear stages id 0 s (s.population siblingLed pool) m
      (h.mono hstages) (fun q hq => Plan.id_ne_of_mem h (List.mem_append_left _ hq))
      (hm.mono hstages)
    have hidle := (hm.mono hlast).of_clear
      (fun q hq => Plan.id_ne_of_mem h (List.mem_append_right _ hq)) hclear
    have hfound := Stage.run_restores last s (h.mono hlast) pool _ hidle
    -- what the last stage leaves is cleared of the anchors that the stages before it added
    rw [Plan.run_eq, bind_apply, bind_apply]
    show (Memo.clearAnchors _ id).anchors = m.anchors
    rw [Memo.clearAnchors, hfound]
    exact hclear.trans (hm.clearAnchors List.mem_cons_self)

theorem runPlans_restores : ∀ (plans : List Plan) (s : Scope), NamedApart (plansOfPlans plans) →
    ∀ pool, Restores (plansOfPlans plans) (runPlans plans s pool)
  | [], _, _, _ => .pure _
  | plan :: rest, s, h, pool => by
    have hfirst := List.subset_append_left plan.plans (plansOfPlans rest)
    have hrest := List.subset_append_right plan.plans (plansOfPlans rest)
    rw [runPlans]
    refine ((Plan.run_restores plan s (h.mono hfirst) pool).mono hfirst).bind fun found => ?_
    exact ((runPlans_restores rest s (h.mono hrest) pool).mono hrest).bind fun _ => .pure _

/-- An execution gives the table of anchors back as it got it, if none of its plans is running when
it starts. -/
theorem Compiled.execute_restores : ∀ (c : Compiled) (s : Scope), NamedApart c.plans →
    ∀ pool, Restores c.plans (c.execute s pool)
  | .mk _ test plans, s, h, pool => by
    have htest := List.subset_append_left (plansOfTest test) (plansOfPlans plans)
    have hplans := List.subset_append_right (plansOfTest test) (plansOfPlans plans)
    rw [Compiled.execute]
    exact .gather s.host ((evalPool_restores test s (h.mono htest) pool).mono htest)
      ((runPlans_restores plans s (h.mono hplans) pool).mono hplans)

theorem evalPool_restores : ∀ (test : Option Test) (s : Scope), NamedApart (plansOfTest test) →
    ∀ pool, Restores (plansOfTest test) (evalPool test s pool)
  | none, _, _, _ => .pure _
  | some t, s, h, pool => .filterM (Test.eval_restores t s h) pool

theorem Compiled.anyMatch_restores : ∀ (c : Compiled) (s : Scope), NamedApart c.plans →
    ∀ pool, Restores c.plans (c.anyMatch s pool)
  | .mk _ test plans, s, h, pool => by
    have htest := List.subset_append_left (plansOfTest test) (plansOfPlans plans)
    have hplans := List.subset_append_right (plansOfTest test) (plansOfPlans plans)
    rw [Compiled.anyMatch]
    split
    · exact .bracketed ((evalSome_restores test s (h.mono htest) pool).mono htest)
    · exact (Restores.gather s.host ((evalPool_restores test s (h.mono htest) pool).mono htest)
        ((runPlans_restores plans s (h.mono hplans) pool).mono hplans)).bind fun _ => .pure _

theorem evalSome_restores : ∀ (test : Option Test) (s : Scope), NamedApart (plansOfTest test) →
    ∀ pool, Restores (plansOfTest test) (evalSome test s pool)
  | none, _, _, _ => .pure false
  | some t, s, h, pool => .anyM (Test.eval_restores t s h) pool

end

end

end TreeQuery
