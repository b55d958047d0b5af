import TreeQuery.Proofs.Matching.Anchors
import TreeQuery.Proofs.Matching.Moments

/-!
# Plans are not entered again

While a plan runs, matching comes to the plans within its stages and to no others. They bear other
names, so at every moment of an execution none of the plans that are still to be entered is running,
and every execution that is nested in another one finds and leaves the anchors of those around it.
-/

namespace TreeQuery

/-- The plans that a call may come to. -/
def Call.ahead : Call → List Plan
  | .eval t _ => t.plans
  | .evalAll tests _ => plansOfTests tests
  | .evalAny tests _ => plansOfTests tests
  | .walk _ _ left _ _ _ => left.plans
  | .filter t _ => t.plans
  | .search t _ => t.plans
  | .set x _ => x.plans
  | .matcher x _ => x.plans
  | .narrow matchers _ => plansOfMatchers matchers
  | .stage x _ => x.plans
  | .stages rest _ _ _ => plansOfStages rest
  | .plan x _ => x.plans
  | .plans rest _ => plansOfPlans rest
  | .execute selector _ => selector.plans
  | .anyMatch selector _ => selector.plans

namespace Moment

/-- Whether the plans to come bear different names and none of them is running. The stages of a plan
that runs come to plans of other names. -/
structure Unentered (x : Moment) : Prop where
  apart : NamedApart x.call.ahead
  idle : x.memo.Idle x.call.ahead
  others : ∀ {rest id index population}, x.call = .stages rest id index population →
    ∀ q ∈ plansOfStages rest, q.id ≠ id

/-- Whether a moment is the start of an execution of a selector. -/
def Runs (x : Moment) (c : Compiled) (pool : List NodeId) : Prop :=
  x.call = .execute c pool ∨ x.call = .anyMatch c pool

variable {x y : Moment}

lemma Unentered.restores {α : Type} {plans : List Plan} {r : Run α} (hx : x.Unentered)
    (hsub : plans ⊆ x.call.ahead) (hr : NamedApart plans → Run.Restores plans r) :
    (r x.memo).2.anchors = x.memo.anchors :=
  hr (hx.apart.mono hsub) x.memo (hx.idle.mono hsub)

lemma Unentered.next (hx : x.Unentered) (hsub : y.call.ahead ⊆ x.call.ahead)
    (hanchors : y.memo.anchors = x.memo.anchors)
    (hothers : ∀ rest id index population, y.call ≠ .stages rest id index population) :
    y.Unentered where
  apart := hx.apart.mono hsub
  idle := (hx.idle.mono hsub).of_anchors hanchors
  others h := absurd h (hothers _ _ _ _)

lemma anchors_marked (m : Memo) (n : NodeId) (direction : Direction) (id : MatcherId)
    (cell : Option Nat) : (m.marked n direction id cell).anchors = m.anchors := by
  cases cell <;> rfl

/-- A step into a computation or past one comes to plans of the same kind, and every computation
that is past has left the anchors as they were. -/
theorem Leads.unentered (h : x.Leads y) (hx : x.Unentered) : y.Unentered := by
  cases h with
  | all | any | negation | direct | remembered | forgetful | has | fromParent | filterFirst |
      searchFirst | members | found | apply | matcherTest | matcherSet | anyMatchPlans =>
    exact hx.next (List.Subset.refl _) rfl (by simp)
  | allRest | anyFirst | narrowFirst | stageTest | stagesFirst | plansFirst =>
    exact hx.next (by simp [Call.ahead, plansOfTests, plansOfMatchers, Stage.plans, plansOfStages,
      plansOfPlans]) rfl (by simp)
  | @allFirst s m t rest n hholds =>
    have hrest := List.subset_append_right t.plans (plansOfTests rest)
    exact hx.next (List.subset_append_left _ _)
      (hx.restores hrest fun h => evalAll_restores rest s h n) (by simp)
  | @anyRest s m t rest n hfails =>
    have hfirst := List.subset_append_left t.plans (plansOfTests rest)
    exact hx.next (List.subset_append_right _ _)
      (hx.restores hfirst fun h => Test.eval_restores t s h n) (by simp)
  | @walkAsks s m c id left cell bound n hunknown =>
    exact hx.next (List.Subset.refl _) (anchors_marked m n c.direction id cell) (by simp)
  | @walkOn s m c id left cell bound n hunknown hfails =>
    have hmarked := anchors_marked m n c.direction id cell
    have hpast := Test.eval_restores left s hx.apart n _ (hx.idle.of_anchors hmarked)
    exact hx.next (List.Subset.refl _) (hpast.trans hmarked) (by simp)
  | @filterRest s m t n rest | @searchRest s m t n rest =>
    exact hx.next (List.Subset.refl _)
      (hx.restores (List.Subset.refl _) fun h => Test.eval_restores t s h n) (by simp)
  | @narrowRest s m matcher rest found hsome =>
    have hfirst := List.subset_append_left matcher.plans (plansOfMatchers rest)
    exact hx.next (List.subset_append_right _ _)
      (hx.restores hfirst fun h => Matcher.apply_restores matcher s h found) (by simp)
  | @stageNarrow s m test narrowers source =>
    have htest := List.subset_append_left test.plans (plansOfMatchers narrowers)
    exact hx.next (List.subset_append_right _ _)
      (hx.restores htest fun h => .filterM (Test.eval_restores test s h) source) (by simp)
  | @stagesRest s m stage rest id index population =>
    have hfirst := List.subset_append_left stage.plans (plansOfStages rest)
    have hrest := List.subset_append_right stage.plans (plansOfStages rest)
    have hne : ∀ q ∈ plansOfStages rest, q.id ≠ id := fun q hq => hx.others rfl q (hrest hq)
    have hstage := hx.restores hfirst fun h => Stage.run_restores stage s h population
    refine ⟨hx.apart.mono hrest, (hx.idle.mono hrest).of_clear hne ?_, fun heq => ?_⟩
    · rw [Memo.clearAnchors_setAnchor, Memo.clearAnchors, hstage]
      rfl
    · cases heq
      exact hne
  | @planStages s m id stages last siblingLed pool =>
    have hstages := Plan.stages_subset_plans id stages last siblingLed
    refine ⟨hx.apart.mono hstages, hx.idle.mono hstages, fun heq q hq => ?_⟩
    cases heq
    exact Plan.id_ne_of_mem hx.apart (List.mem_append_left _ hq)
  | @planLast s m id stages last siblingLed pool =>
    have hstages := Plan.stages_subset_plans id stages last siblingLed
    have hlast := Plan.last_subset_plans id stages last siblingLed
    have hclear := runStages_clear stages id 0 s (s.population siblingLed pool) m
      (hx.apart.mono hstages) (fun q hq => Plan.id_ne_of_mem hx.apart (List.mem_append_left _ hq))
      (hx.idle.mono hstages)
    refine ⟨hx.apart.mono hlast, (hx.idle.mono hlast).of_clear (fun q hq => ?_) hclear, by simp⟩
    exact Plan.id_ne_of_mem hx.apart (List.mem_append_right _ hq)
  | @plansRest s m plan rest pool =>
    have hfirst := List.subset_append_left plan.plans (plansOfPlans rest)
    exact hx.next (List.subset_append_right _ _)
      (hx.restores hfirst fun h => Plan.run_restores plan s h pool) (by simp)
  | @executeTest s m list t plans pool =>
    exact hx.next (List.subset_append_left _ _) m.anchors_bump (by simp)
  | @executePlans s m list test plans pool =>
    have htest := List.subset_append_left (plansOfTest test) (plansOfPlans plans)
    have hstart := (hx.idle.mono htest).of_anchors m.anchors_bump
    have hpast := evalPool_restores test s (hx.apart.mono htest) pool _ hstart
    exact hx.next (List.subset_append_right _ _) (hpast.trans m.anchors_bump) (by simp)
  | @anyMatchTest s m list t pool =>
    exact hx.next (List.subset_append_left _ _) m.anchors_bump (by simp)

lemma ComesTo.unentered (h : x.ComesTo y) (hx : x.Unentered) : y.Unentered := by
  induction h with
  | refl => exact hx
  | tail _ hstep ih => exact hstep.unentered ih

lemma Runs.unentered {c : Compiled} {pool : List NodeId} (h : x.Runs c pool)
    (hapart : NamedApart c.plans) (hidle : x.memo.Idle c.plans) : x.Unentered := by
  have hplans : x.call.ahead = c.plans := by
    obtain h | h := h <;> rw [h, Call.ahead]
  refine ⟨hplans ▸ hapart, hplans ▸ hidle, fun heq => ?_⟩
  obtain h | h := h <;> simp [h] at heq

/-- An execution that matching comes to leaves the anchors as it finds them. -/
theorem Unentered.restores_of_runs (hx : x.Unentered) {c : Compiled} {pool : List NodeId}
    (h : x.Runs c pool) :
    (c.execute x.scope pool x.memo).2.anchors = x.memo.anchors ∧
      (c.anyMatch x.scope pool x.memo).2.anchors = x.memo.anchors := by
  have hsub : c.plans ⊆ x.call.ahead := by
    obtain h | h := h <;> simp [h, Call.ahead]
  exact ⟨hx.restores hsub fun h => Compiled.execute_restores c x.scope h pool,
    hx.restores hsub fun h => Compiled.anyMatch_restores c x.scope h pool⟩

end Moment

end TreeQuery
