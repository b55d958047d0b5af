import TreeQuery.Proofs.Compile.Chains
import TreeQuery.Proofs.Engine.SeedPlans

/-!
# Compounds

A clause is compiled from the values of its tokens alone, and the tests of its last compound are
asked of one element. Taking a token out of that compound takes its test out of the conjunction.
-/

namespace TreeQuery

namespace Plain

open Compile

lemma eq_test_of_addMatcher {d : Draft} {m : Matcher} (h : (d.addMatcher m).narrowers = none) :
    d.narrowers = none ∧ ∃ test, m = .test test ∧
      d.addMatcher m = { d with tests := d.tests ++ [test] } := by
  cases hnarrowers : d.narrowers with
  | some narrowers => simp [Draft.addMatcher, hnarrowers] at h
  | none =>
    cases m with
    | test test => exact ⟨rfl, test, rfl, by simp [Draft.addMatcher, hnarrowers]⟩
    | set m => simp [Draft.addMatcher, hnarrowers] at h

lemma finish_eq_inl {d : Draft} {siblingLed : Bool} {test : Test}
    (h : d.finish siblingLed = .inl test) :
    d.stages = [] ∧ d.narrowers = none ∧ test = .conjunction d.tests := by
  unfold Draft.finish at h
  dsimp only at h
  split at h
  · rename_i hstages hnarrowers
    exact ⟨hstages, hnarrowers, (Sum.inl.inj h).symm⟩
  · simp at h

variable [PatternLibrary] {registry : Registry}
  {nested : String → Except SelectorError Compiled}

/-- The texts of tokens do not matter. -/
theorem foldlM_addToken_congr {ts us : List Token} (h : ts.map Token.value = us.map Token.value)
    (d : Draft) :
    ts.foldlM (addToken registry nested) d = us.foldlM (addToken registry nested) d := by
  induction ts generalizing us d with
  | nil =>
    rw [List.map_nil] at h
    rw [List.map_eq_nil_iff.mp h.symm]
  | cons t rest ih =>
    cases us with
    | nil => simp at h
    | cons u us =>
      rw [List.map_cons, List.map_cons] at h
      obtain ⟨hvalue, hrest⟩ := List.cons.inj h
      have hadd : addToken registry nested d t = addToken registry nested d u := by
        rw [addToken, addToken, hvalue]
      rw [List.foldlM_cons, List.foldlM_cons, hadd]
      congr 1
      funext d'
      exact ih hrest d'

/-- A token that is no combinator adds what it stands for. -/
theorem addToken_of_isCombinator {t : Token} (ht : t.isCombinator = false) (d : Draft) :
    addToken registry nested d t = (simple registry nested t.value).map d.addMatcher := by
  have hvalue : ∀ c, t.value ≠ .combinator c := by
    intro c hc
    rw [Token.isCombinator, combinator?_eq_some_iff.mpr hc] at ht
    simp at ht
  unfold addToken
  split
  · exact absurd ‹_› (hvalue _)
  · rfl

/-- The test that a token stands for, if it stands for one. -/
def testOf (registry : Registry) (nested : String → Except SelectorError Compiled) (t : Token) :
    Test :=
  match simple registry nested t.value with
  | .ok (.test test) => test
  | _ => default

lemma testOf_eq {t : Token} {test : Test} (h : simple registry nested t.value = .ok (.test test)) :
    testOf registry nested t = test := by
  rw [testOf, h]

/-- The tokens of a compound without set matchers add their tests. -/
theorem tests_of_foldlM {compound : List Token}
    (hsimple : ∀ t ∈ compound, t.isCombinator = false) {d d' : Draft}
    (hfold : compound.foldlM (addToken registry nested) d = .ok d')
    (hnarrowers : d'.narrowers = none) :
    d.narrowers = none ∧
      d' = { d with tests := d.tests ++ compound.map (testOf registry nested) } ∧
      ∀ t ∈ compound, simple registry nested t.value = .ok (.test (testOf registry nested t)) := by
  induction compound generalizing d with
  | nil =>
    obtain rfl := Except.ok.inj hfold
    exact ⟨hnarrowers, by simp, by simp⟩
  | cons t rest ih =>
    have hrest : ∀ u ∈ rest, u.isCombinator = false := fun u hu =>
      hsimple u (List.mem_cons_of_mem t hu)
    rw [List.foldlM_cons, addToken_of_isCombinator (hsimple t List.mem_cons_self)] at hfold
    cases hm : simple registry nested t.value with
    | error fault => simp [hm, Except.map, bind, Except.bind] at hfold
    | ok m =>
      rw [hm] at hfold
      obtain ⟨hadded, rfl, htests⟩ := ih hrest hfold
      obtain ⟨hnone, test, rfl, hadd⟩ := eq_test_of_addMatcher hadded
      have htest := testOf_eq hm
      refine ⟨hnone, ?_, List.forall_mem_cons.mpr ⟨htest ▸ hm, htests⟩⟩
      rw [hadd, List.map_cons, htest]
      simp

lemma foldlM_of_tests {compound : List Token}
    (hsimple : ∀ t ∈ compound, t.isCombinator = false)
    (htests : ∀ t ∈ compound, simple registry nested t.value = .ok (.test (testOf registry nested t)))
    (d : Draft) (hnarrowers : d.narrowers = none) :
    compound.foldlM (addToken registry nested) d =
      .ok { d with tests := d.tests ++ compound.map (testOf registry nested) } := by
  induction compound generalizing d with
  | nil => simp [pure, Except.pure]
  | cons t rest ih =>
    have hadd : d.addMatcher (.test (testOf registry nested t)) =
        { d with tests := d.tests ++ [testOf registry nested t] } := by
      simp [Draft.addMatcher, hnarrowers]
    have hnext := ih (fun u hu => hsimple u (List.mem_cons_of_mem t hu))
      (fun u hu => htests u (List.mem_cons_of_mem t hu))
      { d with tests := d.tests ++ [testOf registry nested t] } hnarrowers
    rw [List.foldlM_cons, addToken_of_isCombinator (hsimple t List.mem_cons_self),
      htests t List.mem_cons_self]
    change rest.foldlM (addToken registry nested) (d.addMatcher _) = _
    rw [hadd, hnext]
    simp

/-- The tokens that are kept of a compound ask what it asks, apart from the test that is taken. -/
theorem exists_kept {before after : List Token} {t : Token}
    (hsimple : ∀ u ∈ before ++ t :: after, u.isCombinator = false)
    (htests : ∀ u ∈ before ++ t :: after,
      simple registry nested u.value = .ok (.test (testOf registry nested u))) :
    ∃ kept : List Token, kept = (if before ++ after = [] then [.universal] else before ++ after) ∧
      (∀ u ∈ kept, u.isCombinator = false) ∧
      (∀ u ∈ kept, simple registry nested u.value = .ok (.test (testOf registry nested u))) ∧
      ∀ previous s n, holdsAll ((before ++ t :: after).map (testOf registry nested)) previous s n =
        ((testOf registry nested t).holds previous s n &&
          holdsAll (kept.map (testOf registry nested)) previous s n) := by
  refine ⟨_, rfl, ?_⟩
  by_cases hempty : before ++ after = []
  · obtain ⟨rfl, rfl⟩ := List.append_eq_nil_iff.mp hempty
    simp only [List.nil_append, if_true, List.mem_singleton, forall_eq, List.map_cons, List.map_nil]
    refine ⟨rfl, rfl, fun previous s n => ?_⟩
    simp [holdsAll, testOf, simple, Token.universal, Test.holds, Scope.hasTag]
  · rw [if_neg hempty]
    have hmem : ∀ u ∈ before ++ after, u ∈ before ++ t :: after := by
      intro u hu
      simp only [List.mem_append, List.mem_cons] at hu ⊢
      tauto
    refine ⟨fun u hu => hsimple u (hmem u hu), fun u hu => htests u (hmem u hu),
      fun previous s n => ?_⟩
    simp only [List.map_append, List.map_cons, holdsAll_append, holdsAll]
    exact Bool.and_left_comm _ _ _

/-- Taking a token out of the last compound of a clause takes its test out of the conjunction. The
tokens that are left may be read from another text. -/
theorem clause_without {earlier before after : List Token} {t : Token} {left : Clause}
    (hsimple : ∀ u ∈ before ++ t :: after, u.isCombinator = false)
    (hleft : left.map Token.value =
      (earlier ++ if before ++ after = [] then [.universal] else before ++ after).map Token.value)
    {test : Test}
    (hmade : clause registry nested (earlier ++ (before ++ t :: after)) = .ok (.inl test)) :
    ∃ taken rest, simple registry nested t.value = .ok (.test taken) ∧
      clause registry nested left = .ok (.inl rest) ∧
      ∀ previous s n, test.holds previous s n =
        (taken.holds previous s n && rest.holds previous s n) := by
  rw [clause] at hmade
  cases hfold : (earlier ++ (before ++ t :: after)).foldlM (addToken registry nested) (.start 0) with
  | error fault => simp [hfold, bind, Except.bind] at hmade
  | ok d =>
    rw [hfold] at hmade
    obtain ⟨hstages, hnarrowers, rfl⟩ := finish_eq_inl (Except.ok.inj hmade)
    rw [List.foldlM_append] at hfold
    cases hearlier : earlier.foldlM (addToken registry nested) (.start 0) with
    | error fault => simp [hearlier, bind, Except.bind] at hfold
    | ok d₀ =>
      rw [hearlier] at hfold
      obtain ⟨hnone, rfl, htests⟩ := tests_of_foldlM hsimple hfold hnarrowers
      obtain ⟨kept, hkept, hkeptsimple, hkepttests, hholds⟩ := exists_kept hsimple htests
      rw [← hkept] at hleft
      have hagain := foldlM_of_tests hkeptsimple hkepttests d₀ hnone
      have hread : left.foldlM (addToken registry nested) (.start 0) =
          .ok { d₀ with tests := d₀.tests ++ kept.map (testOf registry nested) } := by
        rw [foldlM_addToken_congr hleft, List.foldlM_append, hearlier]
        exact hagain
      refine ⟨testOf registry nested t, .conjunction (d₀.tests ++ kept.map (testOf registry nested)),
        htests t (by simp), ?_, fun previous s n => ?_⟩
      · rw [clause, hread]
        have hstages' : d₀.stages = [] := hstages
        simp [bind, Except.bind, pure, Except.pure, Draft.finish, hstages', hnone]
      · rw [conjunction_holds, conjunction_holds, holdsAll_append, holdsAll_append, hholds,
          Bool.and_left_comm]

end Plain

end TreeQuery
