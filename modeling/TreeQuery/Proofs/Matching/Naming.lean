import TreeQuery.Proofs.Tree.Order
import TreeQuery.Proofs.Matching.Meaning

/-!
# What names stand for

A walk remembers its outcomes under its name, and a plan publishes the members of its stages under
its own. A naming says which walk or plan each name was given to. A matcher fits a naming when all
its parts bear the names that they were given and refer to no stage but the one before them.
-/

namespace TreeQuery

/-- A stage of a plan, by the name of the plan and the place of the stage. -/
abbrev StageName := MatcherId × Nat

/-- What a name was given to. -/
inductive Named where
  /-- The walks that look for an element that passes a test. The test may refer to a stage. -/
  | walk (left : Test) (previous : Option StageName)
  | plan (p : Plan)

abbrev Naming := MatcherId → Option Named

/-- The last of the first `count` stages of a plan. -/
def lastStage (plan : MatcherId) : Nat → Option StageName
  | 0 => none
  | count + 1 => some (plan, count)

@[simp] lemma lastStage_succ (plan : MatcherId) (count : Nat) :
    lastStage plan (count + 1) = some (plan, count) :=
  rfl

mutual

/-- Whether a test bears its names, `previous` being the only stage that it may refer to. -/
def Test.Fits (N : Naming) : Test → Option StageName → Prop
  | .check _, _ => True
  | .ranked _, _ => True
  | .all tests, previous => fitAll N tests previous
  | .any tests, previous => fitAll N tests previous
  | .related _ id left, previous =>
    ∃ used, (used = none ∨ used = previous) ∧ N id = some (.walk left used) ∧ left.Fits N used
  | .anchored plan stage, previous => previous = some (plan, stage)
  | .negation t, previous => t.Fits N previous
  | .has selector, _ => selector.Fits N
  | .fromParent selector, _ => selector.Fits N

def fitAll (N : Naming) : List Test → Option StageName → Prop
  | [], _ => True
  | t :: rest, previous => t.Fits N previous ∧ fitAll N rest previous

def SetMatcher.Fits (N : Naming) : SetMatcher → Prop
  | .rearrange choose => ∀ seed, choose seed ⊆ seed
  | .members selector _ => selector.Fits N
  | .found selector => selector.Fits N
  | .apply matcher => matcher.Fits N

def Matcher.Fits (N : Naming) : Matcher → Prop
  | .test t => t.Fits N none
  | .set m => m.Fits N

def fitNarrowers (N : Naming) : List Matcher → Prop
  | [] => True
  | m :: rest => m.Fits N ∧ fitNarrowers N rest

def Stage.Fits (N : Naming) : Stage → Option StageName → Prop
  | .mk test narrowers, previous => test.Fits N previous ∧ fitNarrowers N narrowers

/-- Whether the stages of a plan from a place on bear their names. -/
def fitStages (N : Naming) (plan : MatcherId) : List Stage → Nat → Option StageName → Prop
  | [], _, _ => True
  | stage :: rest, index, previous =>
    stage.Fits N previous ∧ fitStages N plan rest (index + 1) (some (plan, index))

def Plan.Fits (N : Naming) : Plan → Prop
  | .mk id stages last siblingLed =>
    N id = some (.plan (.mk id stages last siblingLed)) ∧ fitStages N id stages 0 none ∧
      last.Fits N (lastStage id stages.length)

def fitPlans (N : Naming) : List Plan → Prop
  | [] => True
  | plan :: rest => plan.Fits N ∧ fitPlans N rest

def Compiled.Fits (N : Naming) : Compiled → Prop
  | .mk _ test plans => fitTest N test ∧ fitPlans N plans

def fitTest (N : Naming) : Option Test → Prop
  | none => True
  | some t => t.Fits N none

end

/-- Whether a naming keeps all names that another has given. -/
def Naming.Extends (N' N : Naming) : Prop :=
  ∀ id named, N id = some named → N' id = some named

mutual

theorem Test.Fits.mono {N N' : Naming} (h : N'.Extends N) : ∀ (t : Test)
    (previous : Option StageName), t.Fits N previous → t.Fits N' previous
  | .check _, _, _ => trivial
  | .ranked _, _, _ => trivial
  | .all tests, previous, ht => fitAll_mono h tests previous ht
  | .any tests, previous, ht => fitAll_mono h tests previous ht
  | .related _ _ left, _, ⟨used, hused, hid, hleft⟩ =>
    ⟨used, hused, h _ _ hid, Test.Fits.mono h left used hleft⟩
  | .anchored _ _, _, ht => ht
  | .negation t, previous, ht => Test.Fits.mono h t previous ht
  | .has selector, _, hc => Compiled.Fits.mono h selector hc
  | .fromParent selector, _, hc => Compiled.Fits.mono h selector hc

theorem fitAll_mono {N N' : Naming} (h : N'.Extends N) : ∀ (ts : List Test)
    (previous : Option StageName), fitAll N ts previous → fitAll N' ts previous
  | [], _, _ => trivial
  | t :: rest, previous, ⟨ht, hrest⟩ =>
    ⟨Test.Fits.mono h t previous ht, fitAll_mono h rest previous hrest⟩

theorem SetMatcher.Fits.mono {N N' : Naming} (h : N'.Extends N) : ∀ m : SetMatcher,
    m.Fits N → m.Fits N'
  | .rearrange _, hm => hm
  | .members selector _, hm => Compiled.Fits.mono h selector hm
  | .found selector, hm => Compiled.Fits.mono h selector hm
  | .apply matcher, hm => Matcher.Fits.mono h matcher hm

theorem Matcher.Fits.mono {N N' : Naming} (h : N'.Extends N) : ∀ m : Matcher,
    m.Fits N → m.Fits N'
  | .test t, hm => Test.Fits.mono h t none hm
  | .set m, hm => SetMatcher.Fits.mono h m hm

theorem fitNarrowers_mono {N N' : Naming} (h : N'.Extends N) : ∀ ms : List Matcher,
    fitNarrowers N ms → fitNarrowers N' ms
  | [], _ => trivial
  | m :: rest, ⟨hm, hrest⟩ => ⟨Matcher.Fits.mono h m hm, fitNarrowers_mono h rest hrest⟩

theorem Stage.Fits.mono {N N' : Naming} (h : N'.Extends N) : ∀ (stage : Stage)
    (previous : Option StageName), stage.Fits N previous → stage.Fits N' previous
  | .mk test narrowers, previous, ⟨ht, hms⟩ =>
    ⟨Test.Fits.mono h test previous ht, fitNarrowers_mono h narrowers hms⟩

theorem fitStages_mono {N N' : Naming} (h : N'.Extends N) (plan : MatcherId) :
    ∀ (stages : List Stage) (index : Nat) (previous : Option StageName),
      fitStages N plan stages index previous → fitStages N' plan stages index previous
  | [], _, _, _ => trivial
  | stage :: rest, index, previous, ⟨hs, hrest⟩ =>
    ⟨Stage.Fits.mono h stage previous hs, fitStages_mono h plan rest (index + 1) _ hrest⟩

theorem Plan.Fits.mono {N N' : Naming} (h : N'.Extends N) : ∀ plan : Plan,
    plan.Fits N → plan.Fits N'
  | .mk id stages last _, ⟨hid, hstages, hlast⟩ =>
    ⟨h _ _ hid, fitStages_mono h id stages 0 none hstages, Stage.Fits.mono h last _ hlast⟩

theorem fitPlans_mono {N N' : Naming} (h : N'.Extends N) : ∀ plans : List Plan,
    fitPlans N plans → fitPlans N' plans
  | [], _ => trivial
  | plan :: rest, ⟨hp, hrest⟩ => ⟨Plan.Fits.mono h plan hp, fitPlans_mono h rest hrest⟩

theorem Compiled.Fits.mono {N N' : Naming} (h : N'.Extends N) : ∀ c : Compiled,
    c.Fits N → c.Fits N'
  | .mk _ test plans, ⟨ht, hplans⟩ => ⟨fitTest_mono h test ht, fitPlans_mono h plans hplans⟩

theorem fitTest_mono {N N' : Naming} (h : N'.Extends N) : ∀ t : Option Test,
    fitTest N t → fitTest N' t
  | none, _ => trivial
  | some t, ht => Test.Fits.mono h t none ht

end

mutual

/-- A test that refers to no stage may stand in any. -/
theorem Test.Fits.weaken {N : Naming} (previous : Option StageName) : ∀ t : Test,
    t.Fits N none → t.Fits N previous
  | .check _, _ => trivial
  | .ranked _, _ => trivial
  | .all tests, ht => fitAll_weaken previous tests ht
  | .any tests, ht => fitAll_weaken previous tests ht
  | .related _ _ _, ⟨used, hused, hid, hleft⟩ =>
    ⟨used, .inl (hused.elim (fun h => h) fun h => h), hid, hleft⟩
  | .anchored _ _, ht => nomatch ht
  | .negation t, ht => Test.Fits.weaken previous t ht
  | .has _, hc => hc
  | .fromParent _, hc => hc

theorem fitAll_weaken {N : Naming} (previous : Option StageName) : ∀ ts : List Test,
    fitAll N ts none → fitAll N ts previous
  | [], _ => trivial
  | t :: rest, ⟨ht, hrest⟩ => ⟨Test.Fits.weaken previous t ht, fitAll_weaken previous rest hrest⟩

end

mutual

/-- A test that refers to no stage does not ask for the members of one. -/
theorem Test.holds_of_closed {N : Naming} (s : Scope) (p q : NodeId → Bool) : ∀ (t : Test)
    (n : NodeId), t.Fits N none → t.holds p s n = t.holds q s n
  | .check _, _, _ => rfl
  | .ranked _, _, _ => rfl
  | .all tests, n, ht => holdsAll_of_closed s p q tests n ht
  | .any tests, n, ht => holdsAny_of_closed s p q tests n ht
  | .related c _ left, n, ⟨used, hused, _, hleft⟩ => by
    have hnone : used = none := hused.elim (fun h => h) fun h => h
    have heq : (fun m => left.holds p s m) = fun m => left.holds q s m :=
      funext fun m => Test.holds_of_closed s p q left m (hnone ▸ hleft)
    rw [Test.holds, Test.holds, heq]
  | .anchored _ _, _, ht => nomatch ht
  | .negation t, n, ht => by
    rw [Test.holds, Test.holds, Test.holds_of_closed s p q t n ht]
  | .has _, _, _ => rfl
  | .fromParent _, _, _ => rfl

theorem holdsAll_of_closed {N : Naming} (s : Scope) (p q : NodeId → Bool) : ∀ (ts : List Test)
    (n : NodeId), fitAll N ts none → holdsAll ts p s n = holdsAll ts q s n
  | [], _, _ => rfl
  | t :: rest, n, ⟨ht, hrest⟩ => by
    rw [holdsAll, holdsAll, Test.holds_of_closed s p q t n ht,
      holdsAll_of_closed s p q rest n hrest]

theorem holdsAny_of_closed {N : Naming} (s : Scope) (p q : NodeId → Bool) : ∀ (ts : List Test)
    (n : NodeId), fitAll N ts none → holdsAny ts p s n = holdsAny ts q s n
  | [], _, _ => rfl
  | t :: rest, n, ⟨ht, hrest⟩ => by
    rw [holdsAny, holdsAny, Test.holds_of_closed s p q t n ht,
      holdsAny_of_closed s p q rest n hrest]

end

lemma Host.mem_merge {h : Host} {results : List (List NodeId)} {x : NodeId} :
    x ∈ h.merge results ↔ ∃ found ∈ results, x ∈ found := by
  have hflat : x ∈ (results.filter fun found => !found.isEmpty).flatten ↔
      ∃ found ∈ results, x ∈ found := by
    constructor
    · intro hx
      obtain ⟨found, hfound, hmem⟩ := List.mem_flatten.mp hx
      exact ⟨found, (List.mem_filter.mp hfound).1, hmem⟩
    · rintro ⟨found, hfound, hmem⟩
      refine List.mem_flatten.mpr ⟨found, List.mem_filter.mpr ⟨hfound, ?_⟩, hmem⟩
      cases found with
      | nil => simp at hmem
      | cons y rest => rfl
  unfold Host.merge
  dsimp only
  split
  · rw [Host.mem_uniqueSort, hflat]
  · exact hflat

mutual

theorem SetMatcher.result_subset {N : Naming} (s : Scope) : ∀ (m : SetMatcher)
    (seed : List NodeId), m.Fits N → m.result s seed ⊆ seed
  | .rearrange _, seed, hm => hm seed
  | .members _ _, _, _ => List.filter_sublist.subset
  | .found selector, seed, hm => Compiled.result_subset s selector seed hm
  | .apply matcher, seed, hm => Matcher.result_subset s matcher seed hm

theorem Matcher.result_subset {N : Naming} (s : Scope) : ∀ (m : Matcher) (seed : List NodeId),
    m.Fits N → m.result s seed ⊆ seed
  | .test _, _, _ => List.filter_sublist.subset
  | .set m, seed, hm => SetMatcher.result_subset s m seed hm

theorem narrowed_subset {N : Naming} (s : Scope) : ∀ (ms : List Matcher) (found : List NodeId),
    fitNarrowers N ms → narrowed ms s found ⊆ found
  | [], _, _ => List.Subset.refl _
  | m :: rest, found, ⟨hm, hrest⟩ => by
    rw [narrowed]
    split
    · exact List.Subset.refl _
    · exact List.Subset.trans (narrowed_subset s rest _ hrest)
        (Matcher.result_subset s m found hm)

theorem Stage.result_subset {N : Naming} (s : Scope) (members : NodeId → Bool) :
    ∀ (stage : Stage) (previous : Option StageName) (source : List NodeId),
      stage.Fits N previous → stage.result members s source ⊆ source
  | .mk _ narrowers, _, _, ⟨_, hms⟩ =>
    List.Subset.trans (narrowed_subset s narrowers _ hms) List.filter_sublist.subset

theorem Plan.result_subset {N : Naming} (s : Scope) : ∀ (plan : Plan) (pool : List NodeId),
    plan.Fits N → plan.result s pool ⊆ pool
  | .mk _ _ last _, pool, ⟨_, _, hlast⟩ => Stage.result_subset s _ last _ pool hlast

theorem planResults_subset {N : Naming} (s : Scope) : ∀ (plans : List Plan) (pool : List NodeId),
    fitPlans N plans → ∀ found ∈ planResults plans s pool, found ⊆ pool
  | [], _, _, _, hfound => nomatch hfound
  | plan :: rest, pool, ⟨hp, hrest⟩, found, hfound => by
    obtain rfl | hfound := List.mem_cons.mp hfound
    · exact Plan.result_subset s plan pool hp
    · exact planResults_subset s rest pool hrest found hfound

/-- A compiled selector finds candidates only. -/
theorem Compiled.result_subset {N : Naming} (s : Scope) : ∀ (c : Compiled) (pool : List NodeId),
    c.Fits N → c.result s pool ⊆ pool
  | .mk _ test plans, pool, ⟨_, hplans⟩ => by
    intro x hx
    rw [Compiled.result, Host.mem_merge] at hx
    obtain ⟨found, hfound, hmem⟩ := hx
    obtain rfl | hfound := List.mem_cons.mp hfound
    · cases test with
      | none => simp [passing] at hmem
      | some t => exact (List.mem_filter.mp hmem).1
    · exact planResults_subset s plans pool hplans found hfound hmem

end

end TreeQuery
