import TreeQuery.Proofs.Compile.Plain
import TreeQuery.Proofs.Matching.Naming

/-!
# Clauses half compiled

The tests that a draft has gathered may refer to the stage that it has finished last. Every step of
a compilation keeps that, and does the same to a draft without its names.
-/

namespace TreeQuery

lemma fitAll_append {N : Naming} {previous : Option StageName} (ts us : List Test) :
    fitAll N (ts ++ us) previous ↔ fitAll N ts previous ∧ fitAll N us previous := by
  induction ts with
  | nil => simp [fitAll]
  | cons t rest ih => rw [List.cons_append, fitAll, fitAll, ih, and_assoc]

lemma fitNarrowers_append {N : Naming} (ms ks : List Matcher) :
    fitNarrowers N (ms ++ ks) ↔ fitNarrowers N ms ∧ fitNarrowers N ks := by
  induction ms with
  | nil => simp [fitNarrowers]
  | cons m rest ih => rw [List.cons_append, fitNarrowers, fitNarrowers, ih, and_assoc]

lemma fitStages_concat {N : Naming} {plan : MatcherId} (stage : Stage) :
    ∀ (stages : List Stage) (done : Nat),
      fitStages N plan (stages ++ [stage]) done (lastStage plan done) ↔
        fitStages N plan stages done (lastStage plan done) ∧
          stage.Fits N (lastStage plan (done + stages.length))
  | [], done => by simp [fitStages]
  | first :: rest, done => by
    have ih : _ ↔ fitStages N plan rest (done + 1) _ ∧ _ :=
      fitStages_concat stage rest (done + 1)
    simp only [lastStage_succ] at ih
    rw [List.cons_append, fitStages, fitStages, ih, and_assoc, List.length_cons,
      show done + 1 + rest.length = done + (rest.length + 1) by omega]

lemma conjunction_fits {N : Naming} {previous : Option StageName} {ts : List Test}
    (h : fitAll N ts previous) : (Test.conjunction ts).Fits N previous := by
  match ts with
  | [t] => exact h.1
  | [] => exact h
  | _ :: _ :: _ => exact h

lemma disjunction_fits {N : Naming} {previous : Option StageName} {ts : List Test}
    (h : fitAll N ts previous) : (Test.disjunction ts).Fits N previous := by
  match ts with
  | [t] => exact h.1
  | [] => exact h
  | _ :: _ :: _ => exact h

lemma conjunction_unnamed (ts : List Test) :
    (Test.conjunction ts).unnamed = .conjunction (ts.map Test.unnamed) := by
  match ts with
  | [t] => rfl
  | [] => rfl
  | _ :: _ :: _ => simp [Test.conjunction, Test.unnamed, unnamedTests]

lemma disjunction_unnamed (ts : List Test) :
    (Test.disjunction ts).unnamed = .disjunction (ts.map Test.unnamed) := by
  match ts with
  | [t] => rfl
  | [] => rfl
  | _ :: _ :: _ => simp [Test.disjunction, Test.unnamed, unnamedTests]

namespace Compile

namespace Draft

def unnamed (d : Draft) : Draft where
  plan := 0
  stages := d.stages.map Stage.unnamed
  tests := d.tests.map Test.unnamed
  narrowers := d.narrowers.map (·.map Matcher.unnamed)

/-- Whether all that is gathered bears its names. -/
structure Fits (N : Naming) (d : Draft) : Prop where
  stages : fitStages N d.plan d.stages 0 none
  tests : fitAll N d.tests (lastStage d.plan d.stages.length)
  narrowers : ∀ ms, d.narrowers = some ms → fitNarrowers N ms

variable {N N' : Naming} {d : Draft}

@[simp] lemma plan_endStage (d : Draft) : d.endStage.plan = d.plan := by
  unfold endStage
  split <;> rfl

lemma Fits.mono (h : d.Fits N) (hN : N'.Extends N) : d.Fits N' where
  stages := fitStages_mono hN d.plan d.stages 0 none h.stages
  tests := fitAll_mono hN d.tests _ h.tests
  narrowers ms hms := fitNarrowers_mono hN ms (h.narrowers ms hms)

lemma fits_start (N : Naming) (plan : MatcherId) : (start plan).Fits N where
  stages := trivial
  tests := trivial
  narrowers := by simp [start]

lemma Fits.endStage (h : d.Fits N) : d.endStage.Fits N := by
  unfold Draft.endStage
  split
  · exact h
  · rename_i narrowers hnarrowers
    refine ⟨?_, ?_, by simp⟩
    · have hstage : (Stage.mk (.conjunction d.tests) narrowers).Fits N
          (lastStage d.plan (0 + d.stages.length)) := by
        rw [Nat.zero_add]
        exact ⟨conjunction_fits h.tests, h.narrowers narrowers hnarrowers⟩
      exact (fitStages_concat _ d.stages 0).mpr ⟨h.stages, hstage⟩
    · rw [List.length_append, List.length_singleton, lastStage_succ]
      exact ⟨rfl, trivial⟩

lemma Fits.lead (h : d.Fits N) (c : Combinator) : (d.lead c).Fits N where
  stages := h.stages
  tests := ⟨trivial, trivial⟩
  narrowers := h.narrowers

lemma Fits.relate (h : d.Fits N) (c : Combinator) {id : MatcherId}
    (hid : N id = some (.walk (.conjunction d.tests) (lastStage d.plan d.stages.length))) :
    (d.relate c id).Fits N where
  stages := h.stages
  tests := ⟨⟨_, .inr rfl, hid, conjunction_fits h.tests⟩, trivial⟩
  narrowers := h.narrowers

lemma Fits.addMatcher (h : d.Fits N) {m : Matcher} (hm : m.Fits N) : (d.addMatcher m).Fits N := by
  unfold Draft.addMatcher
  split
  · rename_i _ _ narrowers hnarrowers
    refine ⟨h.stages, h.tests, fun ms hms => ?_⟩
    obtain rfl := Option.some.inj hms
    exact (fitNarrowers_append _ _).mpr ⟨h.narrowers narrowers hnarrowers, hm, trivial⟩
  · rename_i t _
    refine ⟨h.stages, ?_, h.narrowers⟩
    exact (fitAll_append _ _).mpr ⟨h.tests, Test.Fits.weaken _ t hm, trivial⟩
  · refine ⟨h.stages, h.tests, fun ms hms => ?_⟩
    obtain rfl := Option.some.inj hms
    exact ⟨hm, trivial⟩

@[simp] lemma plan_addMatcher (d : Draft) (m : Matcher) : (d.addMatcher m).plan = d.plan := by
  unfold addMatcher
  split <;> rfl

lemma unnamed_start (plan : MatcherId) : (start plan).unnamed = start 0 := rfl

lemma unnamed_endStage (d : Draft) : d.endStage.unnamed = d.unnamed.endStage := by
  unfold endStage
  cases h : d.narrowers with
  | none => simp [unnamed, h]
  | some narrowers =>
    simp [unnamed, h, Stage.unnamed, conjunction_unnamed, Test.unnamed]

lemma unnamed_lead (d : Draft) (c : Combinator) : (d.lead c).unnamed = d.unnamed.lead c := rfl

lemma unnamed_relate (d : Draft) (c : Combinator) (id : MatcherId) :
    (d.relate c id).unnamed = d.unnamed.relate c 0 := by
  simp [unnamed, relate, Test.unnamed, conjunction_unnamed]

lemma unnamed_addMatcher (d : Draft) (m : Matcher) :
    (d.addMatcher m).unnamed = d.unnamed.addMatcher m.unnamed := by
  unfold addMatcher
  cases h : d.narrowers with
  | none => cases m <;> simp [unnamed, h, Matcher.unnamed]
  | some narrowers => simp [unnamed, h]

lemma tests_unnamed_isEmpty (d : Draft) : d.unnamed.tests.isEmpty = d.tests.isEmpty := by
  simp [unnamed]

end Draft

def unnamedClause : Test ⊕ Plan → Test ⊕ Plan
  | .inl t => .inl t.unnamed
  | .inr plan => .inr plan.unnamed

/-- Whether a compiled clause bears its names. -/
def ClauseFits (N : Naming) : Test ⊕ Plan → Prop
  | .inl t => t.Fits N none
  | .inr plan => plan.Fits N

lemma Draft.unnamed_finish (d : Draft) (siblingLed : Bool) :
    unnamedClause (d.finish siblingLed) = d.unnamed.finish siblingLed := by
  unfold finish
  cases hstages : d.stages with
  | nil =>
    cases hnarrowers : d.narrowers <;>
      simp [unnamed, hstages, hnarrowers, unnamedClause, Plan.unnamed, Stage.unnamed,
        conjunction_unnamed]
  | cons stage rest =>
    cases hnarrowers : d.narrowers <;>
      simp [unnamed, hstages, hnarrowers, unnamedClause, Plan.unnamed, Stage.unnamed,
        conjunction_unnamed]

/-- A finished draft bears its names, if the name of its plan is given to the plan that it makes. -/
theorem Draft.Fits.finish {N : Naming} {d : Draft} (h : d.Fits N) (siblingLed : Bool)
    (hplan : ∀ plan, d.finish siblingLed = .inr plan → N d.plan = some (.plan plan)) :
    ClauseFits N (d.finish siblingLed) := by
  unfold Draft.finish at hplan ⊢
  dsimp only at hplan ⊢
  split
  · rename_i hstages hnarrowers
    have htests := h.tests
    rw [hstages] at htests
    exact conjunction_fits htests
  · rename_i stages narrowers hne
    split at hplan
    · rename_i hstages hnarrowers
      exact absurd hnarrowers (hne hstages)
    · refine ⟨hplan _ rfl, h.stages, conjunction_fits h.tests, ?_⟩
      cases hn : d.narrowers with
      | none => trivial
      | some ms => exact h.narrowers ms hn

end Compile

end TreeQuery
