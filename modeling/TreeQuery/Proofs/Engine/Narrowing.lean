import TreeQuery.Proofs.Compile.Compounds
import TreeQuery.Proofs.Engine.World
import TreeQuery.Proofs.Matching.Words
import TreeQuery.Proofs.Selector.Names
import TreeQuery.Proofs.Tree.Sorting

/-!
# Seeds from an index

A host whose indexes are exact finds the elements below a context that a seed describes. From them
the selector that a seed plan leaves selects what the whole selector selects without an index, as
long as the class that is looked up has no blank and the text that is left is read as the tokens
that are left.
-/

namespace TreeQuery

/-- Whether a seed describes an element: by its id, its tag, or a word of its class. -/
def Seed.describes (h : Host) : Seed → NodeId → Bool
  | .id name, n => h.document.attribute? n "id" == some name
  | .tag name, n => h.document.hasTag h.xml n name
  | .className word, n =>
    (h.document.attribute? n "class").any fun value =>
      (blankWords value.toList).contains word.toList

namespace Host

/-- Whether every index that a host advertises finds what is below a scope and nothing else, in any
order and any number of times. Ids may also be found beyond the scope. -/
structure IndexesExact (h : Host) : Prop where
  byId : h.features.idIndex = true → ∀ scope name n,
    (n ∈ h.elementsById scope name →
      h.document.isElement n = true ∧ (Seed.id name).describes h n = true) ∧
    (Relation.TransGen (Linked h.document.parent) n scope → h.document.isElement n = true →
      (Seed.id name).describes h n = true → n ∈ h.elementsById scope name)
  byTag : h.features.tagIndex = true → ∀ scope name, name ≠ "*" → ∀ n,
    n ∈ h.elementsByTag scope name ↔
      Relation.TransGen (Linked h.document.parent) n scope ∧ h.document.isElement n = true ∧
        (Seed.tag name).describes h n = true
  byClass : h.features.classIndex = true → ∀ scope word n,
    n ∈ h.elementsByClass scope word ↔
      Relation.TransGen (Linked h.document.parent) n scope ∧ h.document.isElement n = true ∧
        (Seed.className word).describes h n = true

/-- A host over a forest whose indexes are exact and whose comparator is document order. -/
structure Exact (h : Host) : Prop where
  forest : h.document.IsForest
  indexes : h.IndexesExact
  order : h.ComparesInOrder

variable {h : Host} (hexact : h.Exact)
include hexact

/-- What an index finds below a context, in document order. -/
theorem Exact.fetch_eq {seed : Seed} (hasked : seed.IsAsked h.features) (context : NodeId) :
    seed.fetch h context = (h.document.descendantElements context).filter (seed.describes h) := by
  have hforest := hexact.forest
  refine uniqueSort_eq_filter hforest hexact.order fun n => ?_
  rw [hforest.mem_descendantElements]
  cases seed with
  | id name =>
    obtain ⟨hfound, hall⟩ := hexact.indexes.byId hasked.indexed context name n
    rw [List.mem_filter, hforest.contains_iff]
    constructor
    · rintro ⟨hn, hbelow⟩
      exact ⟨⟨hbelow, (hfound hn).1⟩, (hfound hn).2⟩
    · rintro ⟨⟨hbelow, helem⟩, hdescribes⟩
      exact ⟨hall hbelow helem hdescribes, hbelow⟩
  | tag name =>
    have hname : name ≠ "*" := fun heq => hasked.ne_star (congrArg Seed.tag heq)
    rw [hexact.indexes.byTag hasked.indexed context name hname n, and_assoc]
  | className word =>
    rw [hexact.indexes.byClass hasked.indexed context word n, and_assoc]

lemma Exact.findsElements : h.FindsElements := by
  intro seed context hasked n hn
  rw [hexact.fetch_eq hasked] at hn
  exact Document.isElement_of_descendantElements (List.mem_filter.mp hn).1

end Host

lemma Seed.describes_eq_false {seed : Seed} (hword : ¬seed.IsWord) (h : Host) (n : NodeId) :
    seed.describes h n = false := by
  cases seed with
  | id name => exact absurd trivial hword
  | tag name => exact absurd trivial hword
  | className word =>
    rw [describes, Option.any_eq_false]
    intro value _
    rw [Bool.eq_false_iff, Ne, List.contains_iff_mem]
    exact fun hmem => hword (isBlank_of_mem_blankWords hmem)

lemma SelectorList.parse_star :
    SelectorList.parse "*" = .ok ⟨"*", [[.universal]]⟩ := by with_unfolding_all rfl

/-- A clause that no combinator leads is searched below the context. -/
theorem Compiled.searchRoot_eq {c : Compiled} {clause : Clause} (hclauses : c.list.clauses = [clause])
    (hhead : clause.head?.any Token.isCombinator = false) (d : Document) (context : NodeId) :
    c.searchRoot d context = context := by
  have hlead : clause.leadsWithSibling = false := by
    unfold Clause.leadsWithSibling
    cases hfirst : clause.head? with
    | none => rfl
    | some t =>
      rw [hfirst] at hhead
      have ht : t.combinator? = none := by simpa [Token.isCombinator] using hhead
      simp [ht]
  rw [searchRoot, leadsWithSibling, SelectorList.leadsWithSibling, hclauses, List.any_cons, hlead]
  rfl

variable [PatternLibrary]

/-- The test of a token that is looked up passes the elements that its seed describes. -/
theorem Seed.describes_eq {h : Host} {t : Token} {seed : Seed} (ht : Seed.ofToken t = some seed)
    (hword : seed.IsWord) (hne : ∀ word, t.value = .className word → word.toList ≠ [])
    {registry : Registry} {nested : String → Except SelectorError Compiled} {test : Test}
    (htest : Plain.simple registry nested t.value = .ok (.test test)) (previous : NodeId → Bool)
    (context : Option NodeId) (n : NodeId) :
    test.holds previous (h.scope context) n = seed.describes h n := by
  unfold Seed.ofToken at ht
  split at ht
  · rename_i name hvalue
    obtain rfl := Option.some.inj ht
    rw [hvalue] at htest
    obtain rfl := Matcher.test.inj (Except.ok.inj htest)
    rfl
  · rename_i word hvalue
    obtain rfl := Option.some.inj ht
    rw [hvalue] at htest
    obtain rfl := Matcher.test.inj (ClassPattern.eq_of_map_build htest)
    have haccepts : (ClassPattern.mk word).accepts = fun value =>
        (blankWords value.toList).contains word.toList := by
      funext value
      rw [Bool.eq_iff_iff, ClassPattern.accepts_iff (hne word hvalue) hword,
        List.contains_iff_mem]
    rw [Test.holds, Scope.hasClass, haccepts]
    rfl
  · rename_i name hvalue
    split at ht
    · simp at ht
    · rename_i hstar
      obtain rfl := Option.some.inj ht
      rw [hvalue] at htest
      obtain rfl := Matcher.test.inj (Except.ok.inj htest)
      simp only [Test.holds, Scope.hasTag, describes, hstar, Bool.false_or]
      rfl
  · simp at ht

lemma Registry.parse_of_plain {r : Registry} (hr : r.Steady) {query : String} {c : Compiled}
    (hc : r.plain query = .ok c) : SelectorList.parse query = .ok c.list := by
  rw [Plain.plain_eq hr] at hc
  cases hparse : SelectorList.parse query with
  | error fault => simp [hparse, bind, Except.bind] at hc
  | ok list =>
    rw [hparse] at hc
    change Plain.selectorList r r.plain list = _ at hc
    rw [Plain.selectorList] at hc
    cases hmade : Plain.clauses r r.plain list.clauses with
    | error fault => simp [hmade, bind, Except.bind] at hc
    | ok made =>
      rw [hmade] at hc
      obtain rfl := Except.ok.inj hc
      rfl

namespace Registry

variable {r : Registry} (hr : r.Steady) {query : String} {list : SelectorList}
  (hparse : SelectorList.parse query = .ok list) {clause : Clause} (hclauses : list.clauses = [clause])
include hr hparse hclauses

/-- A list of one clause without set matchers compiles to a test alone. -/
theorem plain_of_test {test : Test} (hmade : Plain.clause r r.plain clause = .ok (.inl test)) :
    r.plain query = .ok (.mk list (some test) []) := by
  rw [Plain.plain_eq hr, hparse]
  change Plain.selectorList r r.plain list = _
  rw [Plain.selectorList, hclauses, Plain.clauses, Plain.clauses, hmade]
  rfl

lemma plain_of_fault {fault : SelectorError}
    (hmade : Plain.clause r r.plain clause = .error fault) : r.plain query = .error fault := by
  rw [Plain.plain_eq hr, hparse]
  change Plain.selectorList r r.plain list = _
  rw [Plain.selectorList, hclauses, Plain.clauses, Plain.clauses, hmade]
  rfl

lemma exists_test_of_plain {c : Compiled} (hc : r.plain query = .ok c)
    (honly : c.isElementOnly = true) :
    ∃ test, Plain.clause r r.plain clause = .ok (.inl test) ∧ c = .mk list (some test) [] := by
  have hplain := hc
  rw [Plain.plain_eq hr, hparse] at hplain
  change Plain.selectorList r r.plain list = _ at hplain
  rw [Plain.selectorList, hclauses, Plain.clauses, Plain.clauses] at hplain
  cases hmade : Plain.clause r r.plain clause with
  | error fault => simp [hmade, bind, Except.bind] at hplain
  | ok made =>
    cases made with
    | inl test =>
      refine ⟨test, rfl, ?_⟩
      rw [plain_of_test hr hparse hclauses hmade] at hc
      exact (Except.ok.inj hc).symm
    | inr plan =>
      rw [hmade] at hplain
      obtain rfl := Except.ok.inj hplain
      simp [Compiled.isElementOnly] at honly

end Registry

lemma Registry.result_star {r : Registry} (hr : r.Steady) :
    ∃ c, r.plain "*" = .ok c ∧ ∀ s pool, c.result s pool = pool := by
  refine ⟨_, r.plain_of_test hr SelectorList.parse_star rfl rfl, fun s pool => ?_⟩
  rw [Compiled.result_of_no_plans]
  exact List.filter_eq_self.mpr fun n _ => rfl

namespace Host

variable {h : Host} (hexact : h.Exact) {r : Registry} (hr : r.Steady) {query : String}
  {list : SelectorList} {plan : SeedPlan} {c : Compiled}
include hexact hr

/-- What is selected from the seeds of a plan, by what the seed describes. -/
theorem Exact.narrowTo_eq (hasked : plan.seed.IsAsked h.features) (context : NodeId) :
    h.narrowTo r plan context =
      let found := (h.document.descendantElements context).filter (plan.seed.describes h)
      if found = [] then .ok []
      else (r.plain plan.reduced).map fun reduced =>
        reduced.result (h.scope (some context)) found := by
  rw [narrowTo, hexact.fetch_eq hasked]
  dsimp only
  by_cases hempty : (h.document.descendantElements context).filter (plan.seed.describes h) = []
  · rw [hempty]
    simp
  · rw [if_neg hempty]
    by_cases htrivial : plan.isTrivial = true
    · obtain ⟨c, hc, hresult⟩ := Registry.result_star hr
      have hreduced : plan.reduced = "*" := beq_iff_eq.mp htrivial
      rw [htrivial, hreduced, hc, Bool.true_or, if_pos rfl]
      exact congrArg Except.ok (hresult _ _).symm
    · rw [Bool.not_eq_true] at htrivial
      rw [htrivial, Bool.false_or, if_neg (by simpa using hempty)]
      cases r.plain plan.reduced <;> rfl

/-- From the seeds of a plan the selector that is left selects what the whole selector selects. -/
theorem Exact.narrowTo_eq_scan (hc : r.plain query = .ok c) (honly : c.isElementOnly = true)
    (hplan : c.list.seedPlan h.features = some plan) (hword : plan.seed.IsWord)
    (hrereads : c.list.Rereads h.features) (context : NodeId) :
    h.narrowTo r plan context = .ok (h.scan c context) := by
  have hparse := Registry.parse_of_plain hr hc
  generalize hlist : c.list = list at hparse hplan hrereads
  have hasked := SelectorList.isAsked_of_seedPlan hplan
  obtain ⟨earlier, before, t, after, hclauses, hsimple, hhead, ht, -, -, -, left, hleft, hreduced,
    heq⟩ := SelectorList.seedPlan_split hplan
  obtain ⟨test, hmade, rfl⟩ := Registry.exists_test_of_plain hr hparse hclauses hc honly
  obtain ⟨⟨source, clauses⟩, hagain, hvalues⟩ := hrereads left hleft
  obtain ⟨left', rfl, hvalues'⟩ := List.map_eq_singleton_iff.mp hvalues
  rw [heq] at hvalues'
  obtain ⟨taken, rest, htaken, hrest, hholds⟩ := Plain.clause_without hsimple hvalues' hmade
  have hne : ∀ word, t.value = .className word → word.toList ≠ [] := fun word hvalue =>
    SelectorList.className_ne_nil hparse (by rw [hclauses]; exact List.mem_singleton.mpr rfl)
      (by simp) hvalue
  have hscan : h.scan (.mk list (some test) []) context =
      ((h.document.descendantElements context).filter (plan.seed.describes h)).filter fun n =>
        rest.holds (fun _ => false) (h.scope (some context)) n := by
    have hroot : (Compiled.mk list (some test) []).searchRoot h.document context = context :=
      Compiled.searchRoot_eq (c := .mk list (some test) []) hclauses hhead h.document context
    rw [scan, hroot, Compiled.result_of_no_plans, passing, List.filter_filter]
    refine List.filter_congr fun n _ => ?_
    rw [hholds, Seed.describes_eq ht hword hne htaken, Bool.and_comm]
  rw [hexact.narrowTo_eq hr hasked, hscan]
  dsimp only
  split
  · rename_i hempty
    rw [hempty, List.filter_nil]
  · rw [hreduced, Registry.plain_of_test hr hagain rfl hrest]
    change Except.ok (Compiled.result _ _ _) = _
    rw [Compiled.result_of_no_plans, passing]

/-- Seeds are for speed: with them or without, the same is selected. -/
theorem Exact.answer_eq_scan (x : ExecutionSettings) (hc : r.plain query = .ok c)
    (hnarrows : c.isElementOnly = true → c.list.Narrows h.features) (context : NodeId) :
    h.answer r x c context = .ok (h.scan c context) := by
  rw [answer]
  cases hplan : h.seedPlan x c with
  | none => rfl
  | some plan =>
    unfold seedPlan at hplan
    split at hplan
    · rename_i hallowed
      have honly := (Bool.and_eq_true_iff.mp hallowed).2
      obtain ⟨hword, hrereads⟩ := hnarrows honly plan hplan
      exact hexact.narrowTo_eq_scan hr hc honly hplan hword hrereads context
    · simp at hplan

end Host

end TreeQuery
