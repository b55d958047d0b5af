import TreeQuery.Proofs.Matching.Ranks
import TreeQuery.Proofs.Matching.Stages
import TreeQuery.Proofs.Matching.Walks

/-!
# Matching with a memo

In a forest a matcher that bears its names gives what it means, whatever the memo holds that agrees
with the execution. A compiled selector gives what it means from every memo, since it starts and
ends with a new generation.
-/

namespace TreeQuery

lemma Host.merge_singleton (h : Host) (found : List NodeId) : h.merge [found] = found := by
  cases found <;> simp [merge]

lemma Compiled.result_of_no_plans (list : SelectorList) (test : Option Test) (s : Scope)
    (pool : List NodeId) : (Compiled.mk list test []).result s pool = passing test s pool := by
  rw [Compiled.result, planResults, Host.merge_singleton]

lemma Plan.run_eq (id : MatcherId) (stages : List Stage) (last : Stage) (siblingLed : Bool)
    (s : Scope) (pool : List NodeId) :
    (Plan.mk id stages last siblingLed).run s pool = (do
      runStages stages id 0 s (s.population siblingLed pool)
      let found ← last.run s pool
      modify (·.clearAnchors id)
      return found) := by
  cases stages <;> rfl

lemma Run.gather_gives {N : Naming} {f : Frame} {bound : Nat} (h : Host)
    {tested : Run (List NodeId)} {planned : Run (List (List NodeId))} {found : List NodeId}
    {results : List (List NodeId)} (htested : Gives N f bound none tested found)
    (hplanned : Gives N f bound none planned results) :
    GivesApart N bound (gather h tested planned) (h.merge (found :: results)) :=
  (Gives.bracketed (htested.bind (hplanned.map _))).map _

section

open Run

/-- A stage that gives its members publishes them for the tests of the next one. -/
theorem Stage.publishes {N : Naming} {f : Frame} {bound : Nat} {id : MatcherId}
    {stages done rest : List Stage} {stage last : Stage} {siblingLed : Bool} {m : Memo}
    (hid : N id = some (.plan (.mk id stages last siblingLed)))
    (hlt : bound < sizeOf (Plan.mk id stages last siblingLed)) (heq : stages = done ++ stage :: rest)
    (hgives : Gives N f bound (lastStage id done.length)
      (stage.run f.scope (f.scope.population siblingLed f.pool))
      (stage.result (N.members f (lastStage id done.length)) f.scope
        (f.scope.population siblingLed f.pool)))
    (hm : m.Ready N f bound (lastStage id done.length)) :
    let found := stage.run f.scope (f.scope.population siblingLed f.pool) m
    let m' := found.2.setAnchor id done.length found.1
    m.Evolves N (sizeOf (Plan.mk id stages last siblingLed)) m' ∧
      m'.Ready N f bound (lastStage id (done.length + 1)) := by
  obtain ⟨hvalue, hev, hready⟩ := hgives m hm
  have hmembers : N.members f (some (id, done.length)) = fun n =>
      (stage.result (N.members f (lastStage id done.length)) f.scope
        (f.scope.population siblingLed f.pool)).contains n := by
    rw [← lastStage_succ, Naming.members_lastStage hid, Naming.members_lastStage hid,
      ← stageMembers_concat, heq, List.take_left, List.take_length_add_append]
    rfl
  dsimp only
  rw [hvalue]
  exact ⟨(hev.mono (Nat.le_of_lt hlt)).trans (.setAnchor hid _ _ _),
    hready.setAnchor hid hlt hmembers⟩

mutual

/-- A test gives what it means. -/
theorem Test.eval_gives {N : Naming} : ∀ (t : Test) (f : Frame) (previous : Option StageName),
    f.scope.document.IsForest → t.Fits N previous →
    ∀ n, f.scope.document.isElement n = true →
      Gives N f (sizeOf t) previous (t.eval f.scope n) (t.holds (N.members f previous) f.scope n)
  | .check accepts, _, _, _, _, _, _ => by
    rw [Test.eval, Test.holds]
    exact Gives.pure _
  | .ranked p, _, _, hforest, _, _, helem => by
    rw [Test.eval, Test.holds]
    exact ranked_gives hforest p helem
  | .all tests, f, previous, hforest, ht, n, helem => by
    rw [Test.eval, Test.holds]
    exact (evalAll_gives tests f previous hforest ht n helem).mono (by simp)
  | .any tests, f, previous, hforest, ht, n, helem => by
    rw [Test.eval, Test.holds]
    exact (evalAny_gives tests f previous hforest ht n helem).mono (by simp)
  | .related c id left, f, previous, hforest, ⟨used, hused, hid, hleft⟩, n, helem => by
    have hsame : left.holds (N.members f used) f.scope =
        left.holds (N.members f previous) f.scope := by
      obtain rfl | rfl := hused
      · exact funext fun k => Test.holds_of_closed f.scope _ _ left k hleft
      · rfl
    have hgives := related_gives hforest hid (Test.eval_gives left f used hforest hleft) c n
    rw [hsame] at hgives
    rw [Test.eval, Test.holds]
    exact (hgives.used hused).mono (by simp)
  | .anchored plan stage, f, previous, _, ht, n, _ => by
    intro m hm
    obtain ⟨_, _, _, hpublished⟩ := hm.published ht
    exact ⟨hpublished n, .refl m, hm⟩
  | .negation t, f, previous, hforest, ht, n, helem => by
    rw [Test.eval, Test.holds]
    exact ((Test.eval_gives t f previous hforest ht n helem).map _).mono (by simp)
  | .has selector, f, previous, hforest, hc, n, _ => by
    rw [Test.eval, Test.holds]
    split
    · rename_i hempty
      have hnone := Compiled.result_subset (f.scope.withContext n) selector [] hc
      rw [List.isEmpty_iff.mp hempty, List.subset_nil.mp hnone]
      exact Gives.pure false
    · exact ((Compiled.anyMatch_gives selector (f.scope.withContext n) hforest hc _
        fun k hk => Document.isElement_of_descendantElements hk).mono (by simp)).gives
  | .fromParent selector, f, previous, hforest, hc, n, helem => by
    rw [Test.eval, Test.holds]
    have hany := Compiled.anyMatch_gives selector
      (f.scope.withContext ((f.scope.document.parent n).getD n)) hforest hc [n]
      fun k hk => (List.mem_singleton.mp hk).symm ▸ helem
    exact (hany.mono (by simp)).gives

theorem evalAll_gives {N : Naming} : ∀ (ts : List Test) (f : Frame) (previous : Option StageName),
    f.scope.document.IsForest → fitAll N ts previous →
    ∀ n, f.scope.document.isElement n = true →
      Gives N f (sizeOf ts) previous (evalAll ts f.scope n)
        (holdsAll ts (N.members f previous) f.scope n)
  | [], _, _, _, _, _, _ => by
    rw [evalAll, holdsAll]
    exact Gives.pure true
  | t :: rest, f, previous, hforest, ⟨ht, hrest⟩, n, helem => by
    rw [evalAll, holdsAll]
    have hlast := evalAll_gives rest f previous hforest hrest n helem
    have hfirst := Test.eval_gives t f previous hforest ht n helem
    refine (hlast.mono (by simp)).bind ?_
    cases holdsAll rest (N.members f previous) f.scope n with
    | true =>
      rw [Bool.and_true]
      exact hfirst.mono (by simp; omega)
    | false => simpa using Gives.pure false

theorem evalAny_gives {N : Naming} : ∀ (ts : List Test) (f : Frame) (previous : Option StageName),
    f.scope.document.IsForest → fitAll N ts previous →
    ∀ n, f.scope.document.isElement n = true →
      Gives N f (sizeOf ts) previous (evalAny ts f.scope n)
        (holdsAny ts (N.members f previous) f.scope n)
  | [], _, _, _, _, _, _ => by
    rw [evalAny, holdsAny]
    exact Gives.pure false
  | t :: rest, f, previous, hforest, ⟨ht, hrest⟩, n, helem => by
    rw [evalAny, holdsAny]
    have hlast := evalAny_gives rest f previous hforest hrest n helem
    have hfirst := Test.eval_gives t f previous hforest ht n helem
    refine (hfirst.mono (by simp; omega)).bind ?_
    cases t.holds (N.members f previous) f.scope n with
    | true => simpa using Gives.pure true
    | false =>
      rw [Bool.false_or]
      exact hlast.mono (by simp)

theorem SetMatcher.run_gives {N : Naming} : ∀ (m : SetMatcher) (f : Frame),
    f.scope.document.IsForest → m.Fits N →
    ∀ seed, (∀ n ∈ seed, f.scope.document.isElement n = true) →
      Gives N f (sizeOf m) none (m.run f.scope seed) (m.result f.scope seed)
  | .rearrange choose, _, _, _, seed, _ => by
    rw [SetMatcher.run, SetMatcher.result]
    exact Gives.pure _
  | .members selector kept, f, hforest, hc, seed, helem => by
    rw [SetMatcher.run, SetMatcher.result]
    have hfound := Compiled.execute_gives selector f.scope hforest hc seed helem
    exact (hfound.mono (by simp; omega)).gives.map _
  | .found selector, f, hforest, hc, seed, helem => by
    rw [SetMatcher.run, SetMatcher.result]
    exact ((Compiled.execute_gives selector f.scope hforest hc seed helem).mono (by simp)).gives
  | .apply matcher, f, hforest, hm, seed, helem => by
    rw [SetMatcher.run, SetMatcher.result]
    exact (Matcher.apply_gives matcher f hforest hm seed helem).mono (by simp)

theorem Matcher.apply_gives {N : Naming} : ∀ (m : Matcher) (f : Frame),
    f.scope.document.IsForest → m.Fits N →
    ∀ seed, (∀ n ∈ seed, f.scope.document.isElement n = true) →
      Gives N f (sizeOf m) none (m.apply f.scope seed) (m.result f.scope seed)
  | .test t, f, hforest, ht, seed, helem => by
    rw [Matcher.apply, Matcher.result]
    refine Gives.filterM fun n hn => ?_
    exact (Test.eval_gives t f none hforest ht n (helem n hn)).mono (by simp)
  | .set m, f, hforest, hm, seed, helem => by
    rw [Matcher.apply, Matcher.result]
    exact (SetMatcher.run_gives m f hforest hm seed helem).mono (by simp)

theorem narrow_gives {N : Naming} : ∀ (ms : List Matcher) (f : Frame),
    f.scope.document.IsForest → fitNarrowers N ms →
    ∀ found, (∀ n ∈ found, f.scope.document.isElement n = true) →
      Gives N f (sizeOf ms) none (narrow ms f.scope found) (narrowed ms f.scope found)
  | [], _, _, _, _, _ => by
    rw [narrow, narrowed]
    exact Gives.pure _
  | m :: rest, f, hforest, ⟨hm, hrest⟩, found, helem => by
    rw [narrow, narrowed]
    split
    · exact Gives.pure _
    · have hfirst := Matcher.apply_gives m f hforest hm found helem
      refine (hfirst.mono (by simp; omega)).bind ?_
      have hsubset := Matcher.result_subset f.scope m found hm
      have hlast := narrow_gives rest f hforest hrest _ fun n hn => helem n (hsubset hn)
      exact hlast.mono (by simp)

theorem Stage.run_gives {N : Naming} : ∀ (stage : Stage) (f : Frame)
    (previous : Option StageName), f.scope.document.IsForest → stage.Fits N previous →
    ∀ source, (∀ n ∈ source, f.scope.document.isElement n = true) →
      Gives N f (sizeOf stage) previous (stage.run f.scope source)
        (stage.result (N.members f previous) f.scope source)
  | .mk test narrowers, f, previous, hforest, ⟨ht, hms⟩, source, helem => by
    rw [Stage.run, Stage.result]
    have htest : Gives N f (sizeOf test) previous (source.filterM (test.eval f.scope))
        (source.filter fun n => test.holds (N.members f previous) f.scope n) :=
      Gives.filterM fun n hn => Test.eval_gives test f previous hforest ht n (helem n hn)
    refine (htest.mono (by simp; omega)).bind ?_
    have hnarrow := narrow_gives narrowers f hforest hms
      (source.filter fun n => test.holds (N.members f previous) f.scope n)
      fun n hn => helem n (List.mem_filter.mp hn).1
    exact (hnarrow.mono (by simp)).used (.inl rfl)

/-- The stages of a plan from a place on publish their members. -/
theorem runStages_publishes {N : Naming} : ∀ (rest : List Stage) (f : Frame) (bound : Nat)
    (id : MatcherId) (stages done : List Stage) (last : Stage) (siblingLed : Bool),
    f.scope.document.IsForest → N id = some (.plan (.mk id stages last siblingLed)) →
    sizeOf stages ≤ bound → bound < sizeOf (Plan.mk id stages last siblingLed) →
    stages = done ++ rest → fitStages N id rest done.length (lastStage id done.length) →
    ∀ m : Memo, m.Ready N f bound (lastStage id done.length) →
      let m' := (runStages rest id done.length f.scope (f.scope.population siblingLed f.pool) m).2
      m.Evolves N (sizeOf (Plan.mk id stages last siblingLed)) m' ∧
        m'.Ready N f bound (lastStage id stages.length)
  | [], _, _, _, _, _, _, _, _, _, _, _, heq, _, m, hm => by
    rw [List.append_nil] at heq
    subst heq
    exact ⟨.refl m, hm⟩
  | stage :: rest, f, bound, id, stages, done, last, siblingLed, hforest, hid, hle, hlt, heq,
      ⟨hs, hrest⟩, m, hm => by
    have hstage : sizeOf stage < sizeOf stages := List.sizeOf_lt_of_mem (heq ▸ by simp)
    have hgives := (Stage.run_gives stage f _ hforest hs (f.scope.population siblingLed f.pool)
      fun n hn => Scope.isElement_of_population hn).mono (by omega : sizeOf stage ≤ bound)
    obtain ⟨hev, hpublished⟩ := Stage.publishes hid hlt heq hgives hm
    have hnext := runStages_publishes rest f bound id stages (done ++ [stage]) last siblingLed
      hforest hid hle hlt (by simp [heq]) (by simpa using hrest) _ (by simpa using hpublished)
    rw [List.length_append, List.length_singleton] at hnext
    rw [runStages]
    exact ⟨hev.trans hnext.1, hnext.2⟩

theorem Plan.run_gives {N : Naming} : ∀ (plan : Plan) (f : Frame),
    f.scope.document.IsForest → plan.Fits N →
    (∀ n ∈ f.pool, f.scope.document.isElement n = true) →
      Gives N f (sizeOf plan) none (plan.run f.scope f.pool) (plan.result f.scope f.pool)
  | .mk id stages last siblingLed, f, hforest, ⟨hid, hstages, hlast⟩, helem => by
    intro m hm
    have hlt : sizeOf stages + sizeOf last < sizeOf (Plan.mk id stages last siblingLed) := by
      simp only [Plan.mk.sizeOf_spec]
      omega
    obtain ⟨hev₁, hready₁⟩ := runStages_publishes stages f _ id stages [] last siblingLed hforest
      hid (Nat.le_add_right _ _) hlt rfl hstages m (hm.mono (Nat.le_of_lt hlt))
    obtain ⟨hvalue, hev₂, hready₂⟩ := (Stage.run_gives last f _ hforest hlast f.pool helem).mono
      (Nat.le_add_left _ (sizeOf stages)) _ hready₁
    have hev := (hev₁.trans (hev₂.mono (Nat.le_of_lt hlt))).trans (.clearAnchors hid _)
    have hready := hready₂.clearAnchors id
    rw [Plan.run_eq, Plan.result, bind_apply, bind_apply]
    refine ⟨?_, hev, hm.evolve hev hready.valid hready.agrees⟩
    rw [Naming.members_lastStage hid, List.take_length] at hvalue
    exact hvalue

theorem runPlans_gives {N : Naming} : ∀ (plans : List Plan) (f : Frame),
    f.scope.document.IsForest → fitPlans N plans →
    (∀ n ∈ f.pool, f.scope.document.isElement n = true) →
      Gives N f (sizeOf plans) none (runPlans plans f.scope f.pool)
        (planResults plans f.scope f.pool)
  | [], _, _, _, _ => by
    rw [runPlans, planResults]
    exact Gives.pure _
  | plan :: rest, f, hforest, ⟨hp, hrest⟩, helem => by
    rw [runPlans, planResults]
    refine ((Plan.run_gives plan f hforest hp helem).mono (by simp; omega)).bind ?_
    exact ((runPlans_gives rest f hforest hrest helem).mono (by simp)).map _

/-- A compiled selector finds what it means, and shares nothing with what runs around it. -/
theorem Compiled.execute_gives {N : Naming} : ∀ (c : Compiled) (s : Scope),
    s.document.IsForest → c.Fits N →
    ∀ pool, (∀ n ∈ pool, s.document.isElement n = true) →
      GivesApart N (sizeOf c) (c.execute s pool) (c.result s pool)
  | .mk list test plans, s, hforest, ⟨ht, hplans⟩, pool, helem => by
    have htest := evalPool_gives test ⟨s, pool⟩ hforest ht helem
    have hplan := runPlans_gives plans ⟨s, pool⟩ hforest hplans helem
    rw [Compiled.execute, Compiled.result]
    exact gather_gives s.host (htest.mono (by simp; omega)) (hplan.mono (by simp))

theorem evalPool_gives {N : Naming} : ∀ (test : Option Test) (f : Frame),
    f.scope.document.IsForest → fitTest N test →
    (∀ n ∈ f.pool, f.scope.document.isElement n = true) →
      Gives N f (sizeOf test) none (evalPool test f.scope f.pool) (passing test f.scope f.pool)
  | none, _, _, _, _ => by
    rw [evalPool, passing]
    exact Gives.pure _
  | some t, f, hforest, ht, helem => by
    rw [evalPool, passing]
    refine Gives.filterM fun n hn => ?_
    exact (Test.eval_gives t f none hforest ht n (helem n hn)).mono (by simp)

/-- Whether a compiled selector finds anything is settled by what it means. -/
theorem Compiled.anyMatch_gives {N : Naming} : ∀ (c : Compiled) (s : Scope),
    s.document.IsForest → c.Fits N →
    ∀ pool, (∀ n ∈ pool, s.document.isElement n = true) →
      GivesApart N (sizeOf c) (c.anyMatch s pool) (!(c.result s pool).isEmpty)
  | .mk list test [], s, hforest, ⟨ht, _⟩, pool, helem => by
    rw [Compiled.anyMatch, Compiled.result_of_no_plans]
    exact (evalSome_gives test ⟨s, pool⟩ hforest ht helem).bracketed.mono (by simp; omega)
  | .mk list test (plan :: rest), s, hforest, ⟨ht, hplans⟩, pool, helem => by
    have htest := evalPool_gives test ⟨s, pool⟩ hforest ht helem
    have hplan := runPlans_gives (plan :: rest) ⟨s, pool⟩ hforest hplans helem
    have hgather := gather_gives s.host
      (htest.mono (by simp; omega : sizeOf test ≤ sizeOf (Compiled.mk list test (plan :: rest))))
      (hplan.mono (by simp))
    rw [Compiled.anyMatch, Compiled.result]
    exact hgather.map fun found => !found.isEmpty

theorem evalSome_gives {N : Naming} : ∀ (test : Option Test) (f : Frame),
    f.scope.document.IsForest → fitTest N test →
    (∀ n ∈ f.pool, f.scope.document.isElement n = true) →
      Gives N f (sizeOf test) none (evalSome test f.scope f.pool)
        (!(passing test f.scope f.pool).isEmpty)
  | none, _, _, _, _ => by
    rw [evalSome, passing]
    exact Gives.pure _
  | some t, f, hforest, ht, helem => by
    have hany : Gives N f (sizeOf t) none (f.pool.anyM (t.eval f.scope))
        (f.pool.any fun n => t.holds (fun _ => false) f.scope n) :=
      Gives.anyM fun n hn => Test.eval_gives t f none hforest ht n (helem n hn)
    have hsome : (f.pool.any fun n => t.holds (fun _ => false) f.scope n) =
        !(passing (some t) f.scope f.pool).isEmpty := by
      rw [passing]
      cases hfilter : f.pool.filter fun n => t.holds (fun _ => false) f.scope n with
      | nil => simpa using List.filter_eq_nil_iff.mp hfilter
      | cons n found =>
        have hmem := List.mem_filter.mp (hfilter ▸ List.mem_cons_self : n ∈ f.pool.filter _)
        simpa using ⟨n, hmem⟩
    rw [evalSome, ← hsome]
    exact hany.mono (by simp)

end

end

end TreeQuery
