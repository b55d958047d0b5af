import TreeQuery.Proofs.Compile.Chains
import TreeQuery.Proofs.Engine.Narrowing

/-!
# Queries that do not look at their context

Only a leading combinator relates an element to the context of a query, and `:has` gives its
argument a context of its own. A list in which no clause starts with a combinator, nor a clause of a
selector in it that shares its context, asks the same of an element under every context.
-/

namespace TreeQuery

/-- Whether the first token relates the clause to the query context. -/
def Clause.isLed (clause : Clause) : Bool :=
  (clause.head?.bind Token.combinator?).isSome

/-- The pseudo-classes whose argument is a selector that keeps the context of the query. -/
def sharingNames : List String := ["not", "is", "matches"]

/-- Whether no clause starts with a combinator, here and in the arguments that share the context. -/
inductive SelectorList.Unled : SelectorList → Prop where
  | mk {list : SelectorList} (unled : ∀ clause ∈ list.clauses, clause.isLed = false)
      (sharing : ∀ clause ∈ list.clauses, ∀ token ∈ clause, ∀ call argument inner,
        token.value = .pseudo call → call.name ∈ sharingNames → call.argument = some argument →
          parse argument = .ok inner → inner.Unled) : list.Unled

lemma SelectorList.Unled.of_no_sharing {list : SelectorList}
    (hled : ∀ clause ∈ list.clauses, clause.isLed = false)
    (hcalls : ∀ clause ∈ list.clauses, ∀ token ∈ clause, ∀ call,
      token.value = .pseudo call → call.name ∉ sharingNames) : list.Unled :=
  .mk hled fun clause hclause token htoken call _ _ hvalue hname =>
    absurd hname (hcalls clause hclause token htoken call hvalue)

/-- A list is unled if all its calls that share the context read the same unled list. -/
theorem SelectorList.Unled.of_argument {list inner : SelectorList} {argument : String}
    (hled : ∀ clause ∈ list.clauses, clause.isLed = false)
    (hcalls : ∀ clause ∈ list.clauses, ∀ token ∈ clause, ∀ call,
      token.value = .pseudo call → call.name ∈ sharingNames → call.argument = some argument)
    (hparse : parse argument = .ok inner) (hinner : inner.Unled) : list.Unled := by
  refine .mk hled fun clause hclause token htoken call other read hvalue hname hother hread => ?_
  obtain rfl := Option.some.inj
    ((hcalls clause hclause token htoken call hvalue hname).symm.trans hother)
  obtain rfl := Except.ok.inj (hparse.symm.trans hread)
  exact hinner

lemma SelectorList.Unled.leadsWithSibling {list : SelectorList} (h : list.Unled) :
    list.leadsWithSibling = false := by
  cases h with
  | mk unled _ =>
    apply List.any_eq_false.mpr
    intro clause hclause
    have hnone : clause.head?.bind Token.combinator? = none := by
      simpa [Clause.isLed] using unled clause hclause
    simp [Clause.leadsWithSibling, hnone]

/-- Whether a test asks the same under every context. -/
def Test.Unscoped (t : Test) : Prop :=
  ∀ (previous : NodeId → Bool) (s : Scope) (context : Option NodeId) (n : NodeId),
    t.holds previous { s with context } n = t.holds previous s n

def Matcher.Unscoped : Matcher → Prop
  | .test t => t.Unscoped
  | .set _ => True

def Compiled.Unscoped (c : Compiled) : Prop :=
  ∀ t, c.elementTest = some t → t.Unscoped

/-- Whether a recipe leads to matchers that ask the same under every context. -/
def Recipe.Unscoped (nested : String → Except SelectorError Compiled) : Recipe → Prop
  | .ready m => m.Unscoped
  | .reject _ => True
  | .compile text next => ∀ c, nested text = .ok c → (next c).Unscoped nested

namespace Test

lemma Unscoped.negation {t : Test} (h : t.Unscoped) : (Test.negation t).Unscoped := by
  intro previous s context n
  rw [holds, holds, h previous s context]

lemma Unscoped.related {t : Test} (h : t.Unscoped) (c : Combinator) (id : MatcherId) :
    (Test.related c id t).Unscoped := by
  intro previous s context n
  simp only [holds, h previous s context]
  rfl

lemma unscoped_conjunction {ts : List Test} (h : ∀ t ∈ ts, t.Unscoped) :
    (Test.conjunction ts).Unscoped := by
  intro previous s context n
  simp only [conjunction_holds]
  induction ts with
  | nil => rfl
  | cons t rest ih =>
    rw [holdsAll, holdsAll, h t List.mem_cons_self previous s context,
      ih fun u hu => h u (List.mem_cons_of_mem t hu)]

lemma unscoped_disjunction {ts : List Test} (h : ∀ t ∈ ts, t.Unscoped) :
    (Test.disjunction ts).Unscoped := by
  intro previous s context n
  simp only [disjunction_holds]
  induction ts with
  | nil => rfl
  | cons t rest ih =>
    rw [holdsAny, holdsAny, h t List.mem_cons_self previous s context,
      ih fun u hu => h u (List.mem_cons_of_mem t hu)]

end Test

section Recipes

variable {nested : String → Except SelectorError Compiled}

lemma Recipe.unscoped_compile {text : String} {make : Compiled → Matcher}
    (h : ∀ c, nested text = .ok c → (make c).Unscoped) :
    (Recipe.compile text fun c => .ready (make c)).Unscoped nested :=
  h

lemma withArgument_unscoped {name : String} {next : String → Recipe} {argument : Option String}
    (h : ∀ text, argument = some text → (next text).Unscoped nested) :
    (withArgument name next argument).Unscoped nested := by
  cases argument with
  | none => trivial
  | some text => exact h text rfl

lemma negationRecipe_unscoped {argument : Option String}
    (h : ∀ text c, argument = some text → nested text = .ok c → c.Unscoped) :
    (negationRecipe argument).Unscoped nested := by
  apply withArgument_unscoped
  intro text htext
  apply Recipe.unscoped_compile
  intro c hc
  cases ht : c.elementTest with
  | none => exact trivial
  | some t => exact (h text c htext hc t ht).negation

lemma membershipRecipe_unscoped {argument : Option String}
    (h : ∀ text c, argument = some text → nested text = .ok c → c.Unscoped) :
    (membershipRecipe argument).Unscoped nested := by
  apply withArgument_unscoped
  intro text htext
  apply Recipe.unscoped_compile
  intro c hc
  cases ht : c.elementTest with
  | none => exact trivial
  | some t => exact h text c htext hc t ht

/-- The argument of `:has` is run with the element for context, whatever the context was. -/
theorem hasRecipe_unscoped (argument : Option String) : (hasRecipe argument).Unscoped nested := by
  apply withArgument_unscoped
  intro text _
  apply Recipe.unscoped_compile
  intro c _
  exact fun _ _ _ _ => rfl

lemma containsRecipe_unscoped (argument : Option String) :
    (containsRecipe argument).Unscoped nested := by
  apply withArgument_unscoped
  intro text _
  exact fun _ _ _ _ => rfl

lemma langRecipe_unscoped (argument : Option String) : (langRecipe argument).Unscoped nested := by
  unfold langRecipe
  dsimp only
  split
  · exact fun _ _ _ _ => rfl
  · exact trivial

lemma indexed_unscoped (name : String) (choose : Int → List NodeId → List NodeId)
    (argument : Option String) : (indexed name choose argument).Unscoped nested := by
  apply withArgument_unscoped
  intro text _
  cases signed? (trimSpacing text.toList) <;> exact trivial

lemma factories_unscoped : ∀ entry ∈ factories, ∀ argument,
    (entry.1 ∈ sharingNames → ∀ text c, argument = some text → nested text = .ok c →
      c.Unscoped) → (entry.2 argument).Unscoped nested := by
  refine forall_mem_factories (fun _ h => ?_) (fun name hname _ h => ?_)
    (fun argument _ => hasRecipe_unscoped argument)
    (fun argument _ => containsRecipe_unscoped argument)
    (fun argument _ => langRecipe_unscoped argument) (fun _ _ _ _ _ => trivial)
    fun name choose _ argument _ => indexed_unscoped name choose argument
  · exact negationRecipe_unscoped (h (by decide))
  · exact membershipRecipe_unscoped (h (List.mem_of_mem_tail hname))

end Recipes

/-- Whether a draft has begun with something else than a combinator, and asks the same under every
context as long as it has no finished stages. -/
structure Compile.Draft.Unscoped (d : Compile.Draft) : Prop where
  begun : d.tests ≠ [] ∨ d.narrowers ≠ none
  tests : d.stages = [] → ∀ t ∈ d.tests, t.Unscoped

namespace Plain

open Compile

variable {nested : String → Except SelectorError Compiled}

/-- Whether the selectors that a token has compiled, and that share the context of the query, ask
the same under every context. -/
def Shares (nested : String → Except SelectorError Compiled) (value : TokenValue) : Prop :=
  ∀ call argument c, value = .pseudo call → call.name ∈ sharingNames →
    call.argument = some argument → nested argument = .ok c → c.Unscoped

lemma unscoped_of_follow : ∀ {r : Recipe} {m : Matcher}, r.Unscoped nested →
    follow nested r = .ok m → m.Unscoped
  | .ready _, _, h, hm => Except.ok.inj hm ▸ h
  | .reject _, _, _, hm => nomatch hm
  | .compile text next, m, h, hm => by
    obtain ⟨c, hc, hm⟩ := bind_eq_ok hm
    exact unscoped_of_follow (h c hc) hm

lemma unscoped_structuralTest (p : StructuralPosition) :
    (Compile.simple.structuralTest p).Unscoped := by
  unfold Compile.simple.structuralTest
  cases p.position <;> exact fun _ _ _ _ => rfl

lemma predicates_unscoped {name : String} {accepts : Scope → NodeId → Bool}
    (h : Registry.standard.get? name = some (.predicate accepts)) (s : Scope)
    (context : Option NodeId) (n : NodeId) : accepts { s with context } n = accepts s n := by
  unfold Registry.standard at h
  obtain ⟨_, -, heq, -⟩ | h :=
    Registry.get?_foldl_register (·.1) (fun entry => .factory entry.2) factories h
  · exact nomatch heq
  · obtain ⟨entry, -, heq, -⟩ | h := Registry.get?_foldl_register (·.1)
      (fun entry => .predicate fun s n => entry.2 s.document n) predicates h
    · rw [← Pseudo.predicate.inj heq]
      rfl
    · simp [Registry.get?, Registry.empty] at h

lemma unscoped_addCombinator {d : Draft} (hd : d.Unscoped) (c : Combinator) :
    (addCombinator d c).Unscoped := by
  cases hnarrowers : d.narrowers with
  | none =>
    have htests : d.tests ≠ [] := hd.begun.resolve_right (fun h => h hnarrowers)
    have hmade : addCombinator d c = d.relate c 0 := by
      unfold addCombinator Draft.endStage
      rw [hnarrowers]
      simp [htests]
    rw [hmade]
    refine ⟨.inl (List.cons_ne_nil _ _), fun hstages t ht => ?_⟩
    obtain rfl := List.mem_singleton.mp ht
    exact (Test.unscoped_conjunction (hd.tests hstages)).related c 0
  | some narrowers =>
    unfold addCombinator Draft.endStage
    rw [hnarrowers]
    exact ⟨.inl (List.cons_ne_nil _ _), fun hstages => by simp [Draft.relate] at hstages⟩

/-- A draft that no combinator leads stays so when a matcher is added. -/
theorem unscoped_addMatcher {d : Draft} (hd : d.stages = [] → ∀ t ∈ d.tests, t.Unscoped)
    {m : Matcher} (hm : m.Unscoped) : (d.addMatcher m).Unscoped := by
  unfold Draft.addMatcher
  split
  · exact ⟨.inr (by simp), hd⟩
  · refine ⟨.inl (by simp), fun hstages t ht => ?_⟩
    obtain ht | ht := List.mem_append.mp ht
    · exact hd hstages t ht
    · obtain rfl := List.mem_singleton.mp ht
      exact hm
  · exact ⟨.inr (by simp), hd⟩

variable [PatternLibrary]

lemma unscoped_of_simple {value : TokenValue} (hvalue : Shares nested value) {m : Matcher}
    (hm : simple .standard nested value = .ok m) : m.Unscoped := by
  unfold simple at hm
  split at hm
  · exact Except.ok.inj hm ▸ fun _ _ _ _ => rfl
  · exact Except.ok.inj hm ▸ fun _ _ _ _ => rfl
  · exact ClassPattern.eq_of_map_build hm ▸ fun _ _ _ _ => rfl
  · exact Except.ok.inj hm ▸ fun _ _ _ _ => rfl
  · exact Except.ok.inj hm ▸ unscoped_structuralTest _
  · rename_i call
    split at hm
    · rename_i accepts hget
      obtain rfl := Except.ok.inj hm
      exact fun _ s context n => predicates_unscoped hget s context n
    · rename_i build hget
      have hrecipe := factories_unscoped _ (Registry.pair_mem_factories hget) call.argument
        fun hname text c htext hc => hvalue call text c rfl hname htext hc
      exact unscoped_of_follow hrecipe hm
    · exact nomatch hm
  · exact nomatch hm

lemma unscoped_of_addToken {d d' : Draft} {t : Token} (ht : Shares nested t.value)
    (hd : d.Unscoped) (hadd : addToken .standard nested d t = .ok d') : d'.Unscoped := by
  unfold addToken at hadd
  split at hadd
  · exact Except.ok.inj hadd ▸ unscoped_addCombinator hd _
  · cases hm : simple .standard nested t.value with
    | error e => simp [hm, Except.map] at hadd
    | ok m =>
      rw [hm] at hadd
      exact Except.ok.inj hadd ▸ unscoped_addMatcher hd.tests (unscoped_of_simple ht hm)

lemma unscoped_of_foldlM : ∀ {ts : List Token} {d d' : Draft},
    (∀ t ∈ ts, Shares nested t.value) → d.Unscoped →
      ts.foldlM (addToken .standard nested) d = .ok d' → d'.Unscoped
  | [], _, _, _, hd, hfold => Except.ok.inj hfold ▸ hd
  | t :: rest, d, d', hts, hd, hfold => by
    rw [List.foldlM_cons] at hfold
    obtain ⟨next, hadd, hfold⟩ := bind_eq_ok hfold
    have hnext := unscoped_of_addToken (hts t List.mem_cons_self) hd hadd
    exact unscoped_of_foldlM (fun u hu => hts u (List.mem_cons_of_mem t hu)) hnext hfold

/-- The test of a clause that no combinator leads asks the same under every context. -/
theorem unscoped_of_clause {c : Clause} (hled : c.isLed = false)
    (hc : ∀ t ∈ c, Shares nested t.value) {t : Test}
    (hmade : clause .standard nested c = .ok (.inl t)) : t.Unscoped := by
  obtain ⟨d, hfold, hmade⟩ := bind_eq_ok hmade
  have htests : d.stages = [] → ∀ t ∈ d.tests, t.Unscoped := by
    cases c with
    | nil =>
      obtain rfl := Except.ok.inj hfold
      intro _ t ht
      cases ht
    | cons first rest =>
      rw [List.foldlM_cons] at hfold
      obtain ⟨next, hadd, hfold⟩ := bind_eq_ok hfold
      have hsimple : ∀ sign, first.value ≠ .combinator sign := by
        intro sign hsign
        simp [Clause.isLed, Token.combinator?, hsign] at hled
      rw [addToken_simple nested _ hsimple] at hadd
      obtain ⟨m, hm, hadd⟩ := bind_eq_ok hadd
      have hnext : next.Unscoped := Except.ok.inj hadd ▸
        unscoped_addMatcher (fun _ t ht => by simp [Draft.start] at ht)
          (unscoped_of_simple (hc first List.mem_cons_self) hm)
      have hrest : ∀ u ∈ rest, _ := fun u hu => hc u (List.mem_cons_of_mem first hu)
      exact (unscoped_of_foldlM hrest hnext hfold).tests
  replace hmade := Except.ok.inj hmade
  unfold Draft.finish at hmade
  dsimp only at hmade
  split at hmade
  · rename_i hstages _
    exact Sum.inl.inj hmade ▸ Test.unscoped_conjunction (htests hstages)
  · cases hmade

lemma unscoped_of_clauses : ∀ {cs : List Clause} {tests : List Test} {plans : List Plan},
    (∀ c ∈ cs, c.isLed = false) → (∀ c ∈ cs, ∀ t ∈ c, Shares nested t.value) →
      clauses .standard nested cs = .ok (tests, plans) → ∀ t ∈ tests, t.Unscoped
  | [], _, _, _, _, hmade, t, ht => by
    obtain ⟨rfl, -⟩ := Prod.mk.inj (Except.ok.inj hmade)
    simp at ht
  | c :: rest, tests, plans, hled, hcs, hmade, t, ht => by
    obtain ⟨first, hc, hmade⟩ := bind_eq_ok hmade
    obtain ⟨⟨otherTests, otherPlans⟩, hrest, hmade⟩ := bind_eq_ok hmade
    obtain ⟨rfl, -⟩ : tests = _ ∧ plans = _ := Prod.mk.inj (Except.ok.inj hmade.symm)
    have hothers : ∀ u ∈ otherTests, u.Unscoped :=
      unscoped_of_clauses (fun c' hc' => hled c' (List.mem_cons_of_mem c hc'))
        (fun c' hc' => hcs c' (List.mem_cons_of_mem c hc')) hrest
    cases first with
    | inr plan => exact hothers t ht
    | inl test =>
      obtain rfl | ht := List.mem_cons.mp ht
      · exact unscoped_of_clause (hled c List.mem_cons_self) (hcs c List.mem_cons_self) hc
      · exact hothers t ht

/-- A list that no combinator leads asks the same under every context. -/
theorem unscoped_of_unled {list : SelectorList} (h : list.Unled) {c : Compiled}
    (hmade : selectorList .standard Registry.standard.plain list = .ok c) : c.Unscoped := by
  induction h generalizing c with
  | @mk list unled _ ih =>
    obtain ⟨⟨tests, plans⟩, hclauses, hmade⟩ := bind_eq_ok hmade
    obtain rfl := Except.ok.inj hmade
    have hshares : ∀ clause ∈ list.clauses, ∀ t ∈ clause,
        Shares Registry.standard.plain t.value := by
      intro clause hclause t ht call argument c hvalue hname hargument hc
      rw [Plain.plain_eq Registry.standard_steady] at hc
      obtain ⟨inner, hparse, hc⟩ := bind_eq_ok hc
      exact ih clause hclause t ht call argument inner hvalue hname hargument hparse hc
    intro t ht
    cases plans with
    | cons plan rest => cases ht
    | nil =>
      rw [Compiled.elementTest] at ht
      split at ht
      · cases ht
      · exact Option.some.inj ht ▸
          Test.unscoped_disjunction (unscoped_of_clauses unled hshares hclauses)

end Plain

end TreeQuery
