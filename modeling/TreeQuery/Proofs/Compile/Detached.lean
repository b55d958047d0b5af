import TreeQuery.Proofs.Compile.Chains

/-!
# Tests that refer to no stage

Only the tests behind a finished stage refer to it. What a token stands for and what a clause without
set matchers is compiled to do not depend on the members of a stage.
-/

namespace TreeQuery

/-- Whether a test asks the same whatever the members of the stage before. -/
def Test.Detached (t : Test) : Prop :=
  ∀ (previous : NodeId → Bool) (s : Scope) (n : NodeId),
    t.holds previous s n = t.holds (fun _ => false) s n

def Matcher.Detached : Matcher → Prop
  | .test t => t.Detached
  | .set _ => True

def Compiled.Detached (c : Compiled) : Prop :=
  ∀ t, c.elementTest = some t → t.Detached

/-- Whether a recipe leads to detached matchers when it gets detached selectors. -/
def Recipe.Detached : Recipe → Prop
  | .ready m => m.Detached
  | .reject _ => True
  | .compile _ next => ∀ c, c.Detached → (next c).Detached

namespace Test

lemma detached_check (accepts : Scope → NodeId → Bool) : (Test.check accepts).Detached :=
  fun _ _ _ => rfl

lemma Detached.negation {t : Test} (h : t.Detached) : (Test.negation t).Detached := by
  intro previous s n
  rw [holds, holds, h previous]

lemma Detached.related {t : Test} (h : t.Detached) (c : Combinator) (id : MatcherId) :
    (Test.related c id t).Detached := by
  intro previous s n
  simp only [holds, h previous]

lemma detached_conjunction {ts : List Test} (h : ∀ t ∈ ts, t.Detached) :
    (Test.conjunction ts).Detached := by
  intro previous s n
  simp only [conjunction_holds]
  induction ts with
  | nil => rfl
  | cons t rest ih =>
    rw [holdsAll, holdsAll, h t List.mem_cons_self previous,
      ih fun u hu => h u (List.mem_cons_of_mem t hu)]

lemma detached_disjunction {ts : List Test} (h : ∀ t ∈ ts, t.Detached) :
    (Test.disjunction ts).Detached := by
  intro previous s n
  simp only [disjunction_holds]
  induction ts with
  | nil => rfl
  | cons t rest ih =>
    rw [holdsAny, holdsAny, h t List.mem_cons_self previous,
      ih fun u hu => h u (List.mem_cons_of_mem t hu)]

end Test

lemma Recipe.detached_compile {text : String} {make : Compiled → Matcher}
    (h : ∀ c, c.Detached → (make c).Detached) :
    (Recipe.compile text fun c => .ready (make c)).Detached :=
  h

lemma withArgument_detached {name : String} {next : String → Recipe}
    (h : ∀ text, (next text).Detached) (argument : Option String) :
    (withArgument name next argument).Detached := by
  cases argument with
  | none => trivial
  | some text => exact h text

lemma negationRecipe_detached (argument : Option String) : (negationRecipe argument).Detached := by
  refine withArgument_detached (fun text => Recipe.detached_compile fun c hc => ?_) argument
  cases ht : c.elementTest with
  | none => exact trivial
  | some t => exact (hc t ht).negation

lemma membershipRecipe_detached (argument : Option String) :
    (membershipRecipe argument).Detached := by
  refine withArgument_detached (fun text => Recipe.detached_compile fun c hc => ?_) argument
  cases ht : c.elementTest with
  | none => exact trivial
  | some t => exact hc t ht

lemma hasRecipe_detached (argument : Option String) : (hasRecipe argument).Detached := by
  refine withArgument_detached (fun text => Recipe.detached_compile fun c _ => ?_) argument
  exact fun _ _ _ => rfl

lemma containsRecipe_detached (argument : Option String) : (containsRecipe argument).Detached := by
  refine withArgument_detached (fun text => ?_) argument
  exact Test.detached_check _

lemma langRecipe_detached (argument : Option String) : (langRecipe argument).Detached := by
  unfold langRecipe
  dsimp only
  split
  · exact Test.detached_check _
  · exact trivial

lemma indexed_detached (name : String) (choose : Int → List NodeId → List NodeId)
    (argument : Option String) : (indexed name choose argument).Detached := by
  refine withArgument_detached (fun text => ?_) argument
  cases signed? (trimSpacing text.toList) <;> exact trivial

lemma factories_detached : ∀ entry ∈ factories, ∀ argument, (entry.2 argument).Detached :=
  forall_mem_factories negationRecipe_detached (fun _ _ => membershipRecipe_detached)
    hasRecipe_detached containsRecipe_detached langRecipe_detached (fun _ _ _ _ => trivial)
    fun name choose _ => indexed_detached name choose

/-- Whether a draft without finished stages refers to none. -/
def Compile.Draft.Detached (d : Compile.Draft) : Prop :=
  d.stages = [] → ∀ t ∈ d.tests, t.Detached

namespace Plain

open Compile

variable {nested : String → Except SelectorError Compiled}

lemma detached_of_follow (hnested : ∀ text c, nested text = .ok c → c.Detached) :
    ∀ {r : Recipe} {m : Matcher}, r.Detached → follow nested r = .ok m → m.Detached
  | .ready _, _, h, hm => Except.ok.inj hm ▸ h
  | .reject _, _, _, hm => nomatch hm
  | .compile text next, m, h, hm => by
    obtain ⟨c, hc, hm⟩ := bind_eq_ok hm
    exact detached_of_follow hnested (h c (hnested text c hc)) hm

lemma detached_structuralTest (p : StructuralPosition) :
    (Compile.simple.structuralTest p).Detached := by
  unfold Compile.simple.structuralTest
  cases p.position <;> exact fun _ _ _ => rfl

lemma detached_endStage {d : Draft} (hd : d.Detached) : d.endStage.Detached := by
  unfold Draft.endStage
  split
  · exact hd
  · exact fun hstages => by simp at hstages

variable [PatternLibrary]

lemma detached_of_simple (hnested : ∀ text c, nested text = .ok c → c.Detached)
    {value : TokenValue} {m : Matcher} (hm : simple .standard nested value = .ok m) :
    m.Detached := by
  unfold simple at hm
  split at hm
  · exact Except.ok.inj hm ▸ Test.detached_check _
  · exact Except.ok.inj hm ▸ Test.detached_check _
  · exact ClassPattern.eq_of_map_build hm ▸ Test.detached_check _
  · exact Except.ok.inj hm ▸ Test.detached_check _
  · exact Except.ok.inj hm ▸ detached_structuralTest _
  · split at hm
    · exact Except.ok.inj hm ▸ Test.detached_check _
    · rename_i build hget
      obtain ⟨entry, hentry, rfl⟩ := Registry.mem_factories_of_get? hget
      exact detached_of_follow hnested (factories_detached entry hentry _) hm
    · exact nomatch hm
  · exact nomatch hm

lemma detached_of_addToken (hnested : ∀ text c, nested text = .ok c → c.Detached)
    {d d' : Draft} {t : Token} (hd : d.Detached) (hadd : addToken .standard nested d t = .ok d') :
    d'.Detached := by
  unfold addToken at hadd
  split at hadd
  · obtain rfl := Except.ok.inj hadd
    unfold addCombinator
    dsimp only
    split
    · intro _ t ht
      obtain rfl := List.mem_singleton.mp ht
      exact Test.detached_check _
    · intro hstages t ht
      obtain rfl := List.mem_singleton.mp ht
      exact (Test.detached_conjunction (detached_endStage hd hstages)).related _ 0
  · cases hm : simple .standard nested t.value with
    | error e => simp [hm, Except.map] at hadd
    | ok m =>
      rw [hm] at hadd
      obtain rfl := Except.ok.inj hadd
      unfold Draft.addMatcher
      split
      · exact hd
      · intro hstages u hu
        obtain hu | hu := List.mem_append.mp hu
        · exact hd hstages u hu
        · obtain rfl := List.mem_singleton.mp hu
          exact detached_of_simple hnested hm
      · exact hd

lemma detached_of_foldlM (hnested : ∀ text c, nested text = .ok c → c.Detached) :
    ∀ {ts : List Token} {d d' : Draft}, d.Detached →
      ts.foldlM (addToken .standard nested) d = .ok d' → d'.Detached
  | [], _, _, hd, hfold => Except.ok.inj hfold ▸ hd
  | t :: rest, d, d', hd, hfold => by
    rw [List.foldlM_cons] at hfold
    obtain ⟨next, hadd, hfold⟩ := bind_eq_ok hfold
    exact detached_of_foldlM hnested (detached_of_addToken hnested hd hadd) hfold

lemma detached_of_clause (hnested : ∀ text c, nested text = .ok c → c.Detached) {c : Clause}
    {t : Test} (hmade : clause .standard nested c = .ok (.inl t)) : t.Detached := by
  obtain ⟨d, hfold, hmade⟩ := bind_eq_ok hmade
  have hd : d.Detached := detached_of_foldlM hnested (fun _ _ ht => by simp [Draft.start] at ht) hfold
  replace hmade := Except.ok.inj hmade
  unfold Draft.finish at hmade
  dsimp only at hmade
  split at hmade
  · rename_i hstages _
    exact Sum.inl.inj hmade ▸ Test.detached_conjunction (hd hstages)
  · cases hmade

lemma detached_of_clauses (hnested : ∀ text c, nested text = .ok c → c.Detached) :
    ∀ {cs : List Clause} {tests : List Test} {plans : List Plan},
      clauses .standard nested cs = .ok (tests, plans) → ∀ t ∈ tests, t.Detached
  | [], _, _, hmade, t, ht => by
    obtain ⟨rfl, -⟩ := Prod.mk.inj (Except.ok.inj hmade)
    simp at ht
  | c :: rest, tests, plans, hmade, t, ht => by
    obtain ⟨first, hc, hmade⟩ := bind_eq_ok hmade
    obtain ⟨⟨otherTests, otherPlans⟩, hrest, hmade⟩ := bind_eq_ok hmade
    obtain ⟨rfl, -⟩ : tests = _ ∧ plans = _ := Prod.mk.inj (Except.ok.inj hmade.symm)
    cases first with
    | inr plan => exact detached_of_clauses hnested hrest t ht
    | inl test =>
      obtain rfl | ht := List.mem_cons.mp ht
      · exact detached_of_clause hnested hc
      · exact detached_of_clauses hnested hrest t ht

lemma detached_of_selectorList (hnested : ∀ text c, nested text = .ok c → c.Detached)
    {list : SelectorList} {c : Compiled} (hmade : selectorList .standard nested list = .ok c) :
    c.Detached := by
  obtain ⟨⟨tests, plans⟩, hclauses, hmade⟩ := bind_eq_ok hmade
  obtain rfl := Except.ok.inj hmade
  intro t ht
  cases plans with
  | cons plan rest => cases ht
  | nil =>
    rw [Compiled.elementTest] at ht
    split at ht
    · cases ht
    · exact Option.some.inj ht ▸ Test.detached_disjunction (detached_of_clauses hnested hclauses)

lemma detached_of_within : ∀ {depth : Nat} {text : String} {c : Compiled},
    within .standard depth text = .ok c → c.Detached
  | 0, _, _, hmade => nomatch hmade
  | depth + 1, text, c, hmade => by
    obtain ⟨list, -, hmade⟩ := bind_eq_ok hmade
    exact detached_of_selectorList (fun _ _ => detached_of_within) hmade

/-- What a token stands for refers to no stage. -/
theorem simple_detached {t : Token} {m : Matcher}
    (hm : simple .standard Registry.standard.plain t.value = .ok m) : m.Detached :=
  detached_of_simple (fun _ _ => detached_of_within) hm

end Plain

end TreeQuery
