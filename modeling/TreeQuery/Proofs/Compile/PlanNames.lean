import TreeQuery.Proofs.Compile.Faithful
import TreeQuery.Proofs.Matching.Anchors

/-!
# Plans of different names

Every plan is given a name that was not given before, as long as the names do not start again, and
a selector is compiled from new plans and from plans of selectors that were compiled before. So all
plans that a compiler has made bear different names, and what it hands out is made of these plans,
whatever it takes from its caches and whatever the pseudo-classes make of the selectors that they
are given.
-/

namespace TreeQuery

lemma plansOfTests_append (ts us : List Test) :
    plansOfTests (ts ++ us) = plansOfTests ts ++ plansOfTests us := by
  induction ts with
  | nil => rfl
  | cons t rest ih => rw [List.cons_append, plansOfTests, plansOfTests, ih, List.append_assoc]

lemma plansOfMatchers_append (ms ks : List Matcher) :
    plansOfMatchers (ms ++ ks) = plansOfMatchers ms ++ plansOfMatchers ks := by
  induction ms with
  | nil => rfl
  | cons m rest ih =>
    rw [List.cons_append, plansOfMatchers, plansOfMatchers, ih, List.append_assoc]

lemma plansOfStages_append (stages others : List Stage) :
    plansOfStages (stages ++ others) = plansOfStages stages ++ plansOfStages others := by
  induction stages with
  | nil => rfl
  | cons stage rest ih => rw [List.cons_append, plansOfStages, plansOfStages, ih, List.append_assoc]

@[simp] lemma plans_conjunction (ts : List Test) :
    (Test.conjunction ts).plans = plansOfTests ts := by
  match ts with
  | [t] => simp [Test.conjunction, plansOfTests]
  | [] => rfl
  | _ :: _ :: _ => rfl

@[simp] lemma plans_disjunction (ts : List Test) :
    (Test.disjunction ts).plans = plansOfTests ts := by
  match ts with
  | [t] => simp [Test.disjunction, plansOfTests]
  | [] => rfl
  | _ :: _ :: _ => rfl

lemma Compiled.plans_elementTest {c : Compiled} {t : Test} (h : c.elementTest = some t) :
    t.plans ⊆ c.plans := by
  obtain ⟨list, test, plans⟩ := c
  cases plans with
  | nil =>
    rw [elementTest] at h
    simp [h, Compiled.plans, plansOfTest]
  | cons plan rest => simp [elementTest] at h

/-- How the plans that were made grow while the count of names does. -/
structure PlansGrow (known : List Plan) (count : Nat) (known' : List Plan) (count' : Nat) :
    Prop where
  keeps : known ⊆ known'
  le : count ≤ count'
  fresh : ∀ p ∈ known', p ∈ known ∨ count < p.id.toNat

namespace PlansGrow

variable {known known' known'' : List Plan} {count count' count'' : Nat}

lemma refl (known : List Plan) (count : Nat) : PlansGrow known count known count :=
  ⟨List.Subset.refl _, Nat.le_refl _, fun _ hp => .inl hp⟩

lemma trans (h : PlansGrow known count known' count')
    (h' : PlansGrow known' count' known'' count'') : PlansGrow known count known'' count'' where
  keeps := List.Subset.trans h.keeps h'.keeps
  le := Nat.le_trans h.le h'.le
  fresh p hp := by
    obtain hp | hlt := h'.fresh p hp
    · exact h.fresh p hp
    · exact .inr (Nat.lt_of_le_of_lt h.le hlt)

end PlansGrow

/-- What a state says about plans: how many names it has counted, and whether what it holds is made
of given plans. -/
structure Stock (σ : Type) where
  count : σ → Nat
  Holds : List Plan → σ → Prop

namespace Stock

variable {σ α β : Type}

/-- Whether given plans bear different names that were counted, and a state holds nothing else. -/
structure Sound (S : Stock σ) (known : List Plan) (s : σ) : Prop where
  apart : NamedApart known
  named : ∀ p ∈ known, p.id.toNat ≤ S.count s
  holds : S.Holds known s

/-- Whether the state that a computation leaves is sound for more plans, and what it gives is made
of them, as long as no name is counted twice. -/
def Yields (S : Stock σ) (known : List Plan) (s : σ) (outcome : Except SelectorError α × σ)
    (P : List Plan → α → Prop) : Prop :=
  S.count outcome.2 < UInt32.size →
    ∃ known', PlansGrow known (S.count s) known' (S.count outcome.2) ∧
      S.Sound known' outcome.2 ∧ ∀ a, outcome.1 = .ok a → P known' a

namespace Yields

variable {S : Stock σ} {known : List Plan} {s : σ} {P : List Plan → α → Prop}
  {Q : List Plan → β → Prop}

/-- A step that makes no plans. -/
theorem same {outcome : Except SelectorError α × σ} (hs : S.Sound known outcome.2)
    (hcount : S.count outcome.2 = S.count s) (h : ∀ a, outcome.1 = .ok a → P known a) :
    S.Yields known s outcome P :=
  fun _ => ⟨known, hcount ▸ .refl known _, hs, h⟩

lemma pure {a : α} (hs : S.Sound known s) (h : P known a) :
    S.Yields known s ((Pure.pure a : Fallible σ α) s) P :=
  same hs rfl fun _ ha => Except.ok.inj ha ▸ h

lemma throw {e : SelectorError} (hs : S.Sound known s) :
    S.Yields known s ((throw e : Fallible σ α) s) P :=
  same hs rfl fun _ ha => nomatch ha

lemma after {known' : List Plan} {s' : σ} {outcome : Except SelectorError α × σ}
    (hgrow : PlansGrow known (S.count s) known' (S.count s'))
    (h : S.Yields known' s' outcome P) : S.Yields known s outcome P := by
  intro hlt
  obtain ⟨known'', hgrow', hrest⟩ := h hlt
  exact ⟨known'', hgrow.trans hgrow', hrest⟩

/-- A computation goes on after another one; a name that was counted before both may be given to a
plan after both. -/
theorem bind_from {known₀ : List Plan} {s₀ : σ} {action : Fallible σ α} {g : α → Fallible σ β}
    (hstart : PlansGrow known₀ (S.count s₀) known (S.count s))
    (haction : S.Yields known s (action s) P)
    (hadds : ∀ a s, S.count s ≤ S.count (g a s).2)
    (hg : ∀ {a s' known'}, PlansGrow known (S.count s) known' (S.count s') → S.Sound known' s' →
      P known' a → S.Yields known₀ s₀ (g a s') Q) :
    S.Yields known₀ s₀ ((action >>= g) s) Q := by
  intro hlt
  rw [Fallible.bind_apply] at hlt ⊢
  rcases hout : action s with ⟨e | a, s'⟩
  · rw [hout] at hlt haction
    obtain ⟨known', hgrow, hsound, -⟩ := haction hlt
    exact ⟨known', hstart.trans hgrow, hsound, fun _ ha => nomatch ha⟩
  · rw [hout] at hlt haction
    obtain ⟨known', hgrow, hsound, hP⟩ := haction (Nat.lt_of_le_of_lt (hadds a s') hlt)
    exact hg hgrow hsound (hP a rfl) hlt

lemma bind {action : Fallible σ α} {g : α → Fallible σ β}
    (haction : S.Yields known s (action s) P) (hadds : ∀ a s, S.count s ≤ S.count (g a s).2)
    (hg : ∀ {a s' known'}, PlansGrow known (S.count s) known' (S.count s') → S.Sound known' s' →
      P known' a → S.Yields known' s' (g a s') Q) :
    S.Yields known s ((action >>= g) s) Q :=
  bind_from (.refl known _) haction hadds fun hgrow hs hP => after hgrow (hg hgrow hs hP)

lemma map {action : Fallible σ α} {g : α → β} (haction : S.Yields known s (action s) P)
    (h : ∀ {known' a}, P known' a → Q known' (g a)) :
    S.Yields known s ((do return g (← action) : Fallible σ β) s) Q :=
  haction.bind (fun _ _ => Nat.le_refl _) fun _ hs hP => .pure hs (h hP)

end Yields

end Stock

/-- Whether a recipe makes its matcher of given plans and of the selectors that it has compiled. -/
def Recipe.Draws : Recipe → List Plan → Prop
  | .ready m, known => m.plans ⊆ known
  | .reject _, _ => True
  | .compile _ next, known =>
    ∀ known' c, known ⊆ known' → c.plans ⊆ known' → (next c).Draws known'

/-- Whether a pseudo-class makes no plans by itself. -/
def Pseudo.Draws (known : List Plan) : Pseudo → Prop
  | .predicate _ => True
  | .factory build => ∀ argument, (build argument).Draws known

def Registry.Draws (known : List Plan) (r : Registry) : Prop :=
  ∀ name pseudo, r.get? name = some pseudo → pseudo.Draws known

lemma Recipe.Draws.mono {known known' : List Plan} (hsub : known ⊆ known') :
    ∀ {r : Recipe}, r.Draws known → r.Draws known'
  | .ready _, h => List.Subset.trans h hsub
  | .reject _, _ => trivial
  | .compile _ _, h => fun known'' c hsub' hc => h known'' c (List.Subset.trans hsub hsub') hc

lemma Pseudo.Draws.mono {known known' : List Plan} (hsub : known ⊆ known') :
    ∀ {pseudo : Pseudo}, pseudo.Draws known → pseudo.Draws known'
  | .predicate _, _ => trivial
  | .factory _, h => fun argument => (h argument).mono hsub

lemma Registry.Draws.mono {known known' : List Plan} {r : Registry} (h : r.Draws known)
    (hsub : known ⊆ known') : r.Draws known' :=
  fun name pseudo hget => (h name pseudo hget).mono hsub

lemma Registry.Draws.register {known : List Plan} {r : Registry} (h : r.Draws known)
    (name : String) {pseudo : Pseudo} (hpseudo : pseudo.Draws known) :
    (r.register name pseudo).Draws known := by
  intro name' found hget
  obtain ⟨rfl, -⟩ | hget := get?_register hget
  · exact hpseudo
  · exact h name' found hget

/-- A recipe that makes its matcher of one selector. -/
theorem Recipe.draws_compile (text : String) {make : Compiled → Matcher}
    (h : ∀ c, (make c).plans ⊆ c.plans) (known : List Plan) :
    (Recipe.compile text fun c => .ready (make c)).Draws known :=
  fun _ c _ hc => List.Subset.trans (h c) hc

lemma withArgument_draws {name : String} {next : String → Recipe} {known : List Plan}
    (h : ∀ text, (next text).Draws known) (argument : Option String) :
    (withArgument name next argument).Draws known := by
  cases argument with
  | none => trivial
  | some text => exact h text

lemma choice_draws (choose : List NodeId → List NodeId) (known : List Plan) :
    (choice choose).Draws known :=
  List.nil_subset known

lemma check_draws (accepts : Scope → NodeId → Bool) (known : List Plan) :
    (Recipe.ready (.test (.check accepts))).Draws known :=
  List.nil_subset known

lemma negationRecipe_draws (argument : Option String) (known : List Plan) :
    (negationRecipe argument).Draws known := by
  refine withArgument_draws (fun text => Recipe.draws_compile text (fun c => ?_) known) argument
  cases ht : c.elementTest with
  | none => exact List.Subset.refl _
  | some t =>
    have hwithin : t.plans ⊆ c.plans := Compiled.plans_elementTest ht
    exact hwithin

lemma membershipRecipe_draws (argument : Option String) (known : List Plan) :
    (membershipRecipe argument).Draws known := by
  refine withArgument_draws (fun text => Recipe.draws_compile text (fun c => ?_) known) argument
  cases ht : c.elementTest with
  | none => exact List.Subset.refl _
  | some t => exact Compiled.plans_elementTest ht

lemma hasRecipe_draws (argument : Option String) (known : List Plan) :
    (hasRecipe argument).Draws known := by
  refine withArgument_draws (fun text => ?_) argument
  have hsame : ∀ c : Compiled, (Matcher.test (.has c)).plans ⊆ c.plans :=
    fun c => List.Subset.refl c.plans
  exact Recipe.draws_compile text hsame known

lemma containsRecipe_draws (argument : Option String) (known : List Plan) :
    (containsRecipe argument).Draws known :=
  withArgument_draws (fun _ => check_draws _ known) argument

lemma langRecipe_draws (argument : Option String) (known : List Plan) :
    (langRecipe argument).Draws known := by
  unfold langRecipe
  dsimp only
  split
  · exact check_draws _ known
  · exact trivial

lemma indexed_draws (name : String) (choose : Int → List NodeId → List NodeId)
    (argument : Option String) (known : List Plan) :
    (indexed name choose argument).Draws known := by
  refine withArgument_draws (fun text => ?_) argument
  cases signed? (trimSpacing text.toList) with
  | none => exact trivial
  | some n => exact choice_draws _ known

lemma factories_draw (known : List Plan) :
    ∀ entry ∈ factories, ∀ argument, (entry.2 argument).Draws known :=
  forall_mem_factories (negationRecipe_draws · known) (fun _ _ => (membershipRecipe_draws · known))
    (hasRecipe_draws · known) (containsRecipe_draws · known) (langRecipe_draws · known)
    (fun _ _ _ _ => choice_draws _ known)
    fun name choose _ argument => indexed_draws name choose argument known

lemma Registry.standard_draws (known : List Plan) : standard.Draws known := by
  intro name pseudo hget
  cases pseudo with
  | predicate => exact trivial
  | factory build =>
    obtain ⟨entry, hentry, rfl⟩ := mem_factories_of_get? hget
    exact factories_draw known entry hentry

/-- Caches hold compiled selectors. -/
def CompileCaches.stock : Stock CompileCaches where
  count := CompileCaches.named
  Holds known c := ∀ entry ∈ c.compiled.entries, entry.2.value.plans ⊆ known

namespace Compile

open Stock

def Draft.plans (d : Draft) : List Plan :=
  plansOfStages d.stages ++ (plansOfTests d.tests ++ plansOfMatchers (d.narrowers.getD []))

lemma Draft.plans_endStage (d : Draft) : d.endStage.plans = d.plans := by
  unfold endStage
  split
  · rfl
  · rename_i narrowers hnarrowers
    simp [plans, hnarrowers, plansOfStages_append, plansOfStages, Stage.plans, plansOfTests,
      Test.plans, plansOfMatchers]

lemma Draft.plans_lead_subset (d : Draft) (c : Combinator) : (d.lead c).plans ⊆ d.plans := by
  simp [plans, lead, plansOfTests, Test.plans]

lemma Draft.plans_relate (d : Draft) (c : Combinator) (id : MatcherId) :
    (d.relate c id).plans = d.plans := by
  simp [plans, relate, plansOfTests, Test.plans]

lemma Draft.plans_addMatcher_subset {known : List Plan} {d : Draft} {m : Matcher}
    (hd : d.plans ⊆ known) (hm : m.plans ⊆ known) : (d.addMatcher m).plans ⊆ known := by
  simp only [plans, List.append_subset] at hd ⊢
  obtain ⟨hstages, htests, hnarrowers⟩ := hd
  unfold addMatcher
  split
  · rename_i narrowers hold
    rw [hold] at hnarrowers
    refine ⟨hstages, htests, ?_⟩
    rw [Option.getD_some, plansOfMatchers_append, List.append_subset]
    exact ⟨hnarrowers, by simpa [plansOfMatchers] using hm⟩
  · refine ⟨hstages, ?_, hnarrowers⟩
    rw [plansOfTests_append, List.append_subset]
    exact ⟨htests, by simpa [plansOfTests, Matcher.plans] using hm⟩
  · exact ⟨hstages, htests, by simpa [plansOfMatchers, Matcher.plans] using hm⟩

/-- The plans of a clause that was compiled. -/
def clausePlans : Test ⊕ Plan → List Plan
  | .inl t => t.plans
  | .inr plan => plan.plans

lemma Draft.plans_finish_inl {d : Draft} {siblingLed : Bool} {t : Test}
    (h : d.finish siblingLed = .inl t) : t.plans ⊆ d.plans := by
  unfold finish at h
  dsimp only at h
  split at h
  · rw [← Sum.inl.inj h, plans_conjunction]
    simp [plans]
  · cases h

lemma Draft.plans_finish_inr {d : Draft} {siblingLed : Bool} {plan : Plan}
    (h : d.finish siblingLed = .inr plan) :
    plan.id = d.plan ∧ plan.plans ⊆ plan :: d.plans := by
  unfold finish at h
  dsimp only at h
  split at h
  · cases h
  · rw [← Sum.inr.inj h]
    simp [plans, Plan.id, Plan.plans, Stage.plans]

section

variable {registry : Registry} {known : List Plan} {c c' : CompileCaches}

lemma sound_of_same (hc : CompileCaches.stock.Sound known c) (hnamed : c'.named = c.named)
    (hcompiled : c'.compiled.entries = c.compiled.entries) :
    CompileCaches.stock.Sound known c' := by
  refine ⟨hc.apart, fun p hp => ?_, fun entry hentry => ?_⟩
  · show p.id.toNat ≤ c'.named
    rw [hnamed]
    exact hc.named p hp
  · rw [hcompiled] at hentry
    exact hc.holds entry hentry

/-- A name may be counted and not be given to a plan. -/
theorem sound_of_reserved (hc : CompileCaches.stock.Sound known c) :
    PlansGrow known c.named known (c.named + 1) ∧
      CompileCaches.stock.Sound known { c with named := c.named + 1 } :=
  ⟨⟨List.Subset.refl known, Nat.le_succ _, fun _ hp => .inl hp⟩,
    hc.apart, fun p hp => Nat.le_succ_of_le (hc.named p hp), hc.holds⟩

/-- A plan is given the name that was counted before all names of newer plans. -/
theorem sound_of_given {known' : List Plan} {plan : Plan}
    (hc : CompileCaches.stock.Sound known c) (hc' : CompileCaches.stock.Sound known' c')
    (hgrow : PlansGrow known (c.named + 1) known' c'.named)
    (hid : plan.id.toNat = c.named + 1) :
    PlansGrow known c.named (plan :: known') c'.named ∧
      CompileCaches.stock.Sound (plan :: known') c' := by
  have hnew : ∀ p ∈ known', p.id ≠ plan.id := by
    intro p hp heq
    have hsame : p.id.toNat = c.named + 1 := by rw [heq, hid]
    obtain hold | hlt := hgrow.fresh p hp
    · have hle : p.id.toNat ≤ c.named := hc.named p hold
      omega
    · omega
  have hle := hgrow.le
  refine ⟨⟨fun p hp => List.mem_cons_of_mem _ (hgrow.keeps hp), by omega, fun p hp => ?_⟩, ?_, ?_,
    fun entry hentry p hp => List.mem_cons_of_mem _ (hc'.holds entry hentry hp)⟩
  · obtain rfl | hp := List.mem_cons.mp hp
    · exact .inr (by omega)
    · obtain hold | hlt := hgrow.fresh p hp
      · exact .inl hold
      · exact .inr (by omega)
  · intro p hp q hq heq
    obtain rfl | hold := List.mem_cons.mp hp
    · obtain rfl | hold' := List.mem_cons.mp hq
      · rfl
      · exact absurd heq.symm (hnew q hold')
    · obtain rfl | hold' := List.mem_cons.mp hq
      · exact absurd heq (hnew p hold)
      · exact hc'.apart p hold q hold' heq
  · intro p hp
    obtain rfl | hp := List.mem_cons.mp hp
    · show p.id.toNat ≤ c'.named
      omega
    · exact hc'.named p hp

lemma tokenize_yields (hc : CompileCaches.stock.Sound known c) (text : String) :
    CompileCaches.stock.Yields known c (tokenize text c) fun _ _ => True := by
  obtain ⟨hnamed, hcompiled⟩ := tokenize_leaves text c
  exact .same (sound_of_same hc hnamed (by rw [hcompiled])) hnamed fun _ _ => trivial

lemma classPattern_yields [PatternLibrary] (hc : CompileCaches.stock.Sound known c) (word : String) :
    CompileCaches.stock.Yields known c (classPattern word c) fun _ _ => True := by
  obtain ⟨hnamed, hcompiled⟩ := classPattern_leaves word c
  exact .same (sound_of_same hc hnamed (by rw [hcompiled])) hnamed fun _ _ => trivial

lemma plans_structuralTest (p : StructuralPosition) : (simple.structuralTest p).plans = [] := by
  unfold simple.structuralTest
  cases p.position <;> rfl

variable [PatternLibrary]

/-- Whether a computation compiles texts from sound caches to selectors that are made of plans that
were made by then. -/
structure Provides (registry : Registry) (nested : String → Compile Compiled) : Prop where
  adds : ∀ text, (CompileCaches.ledger registry).Adds (nested text)
  yields : ∀ (text : String) {known : List Plan} {c : CompileCaches}, registry.Draws known →
    CompileCaches.stock.Sound known c →
    CompileCaches.stock.Yields known c (nested text c) fun known' made => made.plans ⊆ known'

variable {nested : String → Compile Compiled}

lemma follow_yields (hnested : Provides registry nested) :
    ∀ {r : Recipe} {known : List Plan} {c : CompileCaches}, registry.Draws known →
      CompileCaches.stock.Sound known c → r.Draws known →
      CompileCaches.stock.Yields known c (follow nested r c) fun known' m => m.plans ⊆ known'
  | .ready _, _, _, _, hc, hr => .pure hc hr
  | .reject _, _, _, _, hc, _ => .throw hc
  | .compile text next, _, _, hregistry, hc, hr =>
    (hnested.yields text hregistry hc).bind (fun made => follow_adds hnested.adds (next made))
      fun hgrow hc' hmade =>
        follow_yields hnested (hregistry.mono hgrow.keeps) hc' (hr _ _ hgrow.keeps hmade)

lemma simple_yields (hregistry : registry.Draws known) (hnested : Provides registry nested)
    (hc : CompileCaches.stock.Sound known c) (value : TokenValue) :
    CompileCaches.stock.Yields known c (simple registry nested value c)
      fun known' m => m.plans ⊆ known' := by
  cases value with
  | tag | id | «attribute» => exact .pure hc (List.nil_subset known)
  | className word => exact (classPattern_yields hc word).map fun _ => List.nil_subset _
  | structural p =>
    refine .pure hc ?_
    rw [Matcher.plans, plans_structuralTest]
    exact List.nil_subset known
  | pseudo call =>
    rw [simple]
    cases hget : registry.get? call.name with
    | none => exact .throw hc
    | some pseudo =>
      cases pseudo with
      | predicate accepts => exact .pure hc (List.nil_subset known)
      | factory build =>
        exact follow_yields hnested hregistry hc (hregistry _ _ hget call.argument)
  | combinator sign => exact .throw hc

/-- Whether a draft has a given name and is made of given plans. -/
def DraftMade (plan : MatcherId) (known : List Plan) (d : Draft) : Prop :=
  d.plan = plan ∧ d.plans ⊆ known

lemma addToken_yields (hregistry : registry.Draws known) (hnested : Provides registry nested)
    (hc : CompileCaches.stock.Sound known c) {plan : MatcherId} {d : Draft}
    (hd : DraftMade plan known d) (t : Token) :
    CompileCaches.stock.Yields known c (addToken registry nested d t c) (DraftMade plan) := by
  obtain ⟨rfl, hplans⟩ := hd
  by_cases hsign : ∃ sign, t.value = .combinator sign
  · obtain ⟨sign, hsign⟩ := hsign
    have hended := hplans
    rw [← Draft.plans_endStage] at hended
    rw [addToken_combinator nested d hsign, Draft.addCombinator]
    split
    · exact .pure hc ⟨d.plan_endStage, List.Subset.trans (Draft.plans_lead_subset _ _) hended⟩
    · obtain ⟨hgrow, hreserved⟩ := sound_of_reserved hc
      rw [← Draft.plans_relate _ sign (.ofNat (c.named + 1))] at hended
      rw [freshId_bind]
      refine fun _ => ⟨known, hgrow, hreserved, fun made hmade => ?_⟩
      obtain rfl := Except.ok.inj hmade
      exact ⟨d.plan_endStage, hended⟩
  · rw [addToken_simple nested d fun sign h => hsign ⟨sign, h⟩]
    refine (simple_yields hregistry hnested hc t.value).bind (fun _ _ => Nat.le_refl _)
      fun hgrow hc' hm => .pure hc' ⟨d.plan_addMatcher _, ?_⟩
    exact Draft.plans_addMatcher_subset (List.Subset.trans hplans hgrow.keeps) hm

lemma foldlM_yields (hnested : Provides registry nested) {plan : MatcherId} :
    ∀ {ts : List Token} {known : List Plan} {c : CompileCaches} {d : Draft},
      registry.Draws known → CompileCaches.stock.Sound known c → DraftMade plan known d →
      CompileCaches.stock.Yields known c (ts.foldlM (addToken registry nested) d c) (DraftMade plan)
  | [], _, _, _, _, hc, hd => .pure hc hd
  | t :: rest, known, c, d, hregistry, hc, hd => by
    rw [List.foldlM_cons]
    exact (addToken_yields hregistry hnested hc hd t).bind
      (fun _ => Ledger.Adds.foldlM (addToken_adds hnested.adds) rest _)
      fun hgrow hc' hd' => foldlM_yields hnested (hregistry.mono hgrow.keeps) hc' hd'

/-- A clause with set matchers becomes a new plan, whose name was counted before those of the plans
within it. -/
theorem clause_yields (hregistry : registry.Draws known) (hnested : Provides registry nested)
    (hc : CompileCaches.stock.Sound known c) (ts : Clause) :
    CompileCaches.stock.Yields known c (clause registry nested ts c)
      fun known' made => clausePlans made ⊆ known' := by
  obtain ⟨hgrow, hreserved⟩ := sound_of_reserved hc
  have hstart : DraftMade (.ofNat (c.named + 1)) known (.start (.ofNat (c.named + 1))) :=
    ⟨rfl, List.nil_subset known⟩
  rw [clause, freshId_bind]
  refine .bind_from hgrow (foldlM_yields hnested hregistry hreserved hstart)
    (fun _ _ => Nat.le_refl _) fun {d c' known'} hgrow' hc' hd => ?_
  obtain ⟨hplan, hplans⟩ := hd
  cases hfinish : d.finish ts.leadsWithSibling with
  | inl t =>
    exact .after (hgrow.trans hgrow')
      (.pure hc' (List.Subset.trans (Draft.plans_finish_inl hfinish) hplans))
  | inr made =>
    obtain ⟨hid, hwithin⟩ := Draft.plans_finish_inr hfinish
    intro hlt
    have hle : c.named + 1 ≤ c'.named := hgrow'.le
    have hname : made.id.toNat = c.named + 1 := by
      rw [hid, hplan]
      exact toNat_ofNat_named (Nat.lt_of_le_of_lt hle hlt)
    obtain ⟨hgiven, hsound⟩ := sound_of_given hc hc' hgrow' hname
    refine ⟨made :: known', hgiven, hsound, fun a ha => ?_⟩
    obtain rfl := Except.ok.inj ha
    exact List.Subset.trans hwithin (List.cons_subset_cons made hplans)

lemma clauses_yields (hnested : Provides registry nested) :
    ∀ {cs : List Clause} {known : List Plan} {c : CompileCaches}, registry.Draws known →
      CompileCaches.stock.Sound known c →
      CompileCaches.stock.Yields known c (clauses registry nested cs c)
        fun known' made => plansOfTests made.1 ++ plansOfPlans made.2 ⊆ known'
  | [], _, _, _, hc => .pure hc (List.nil_subset _)
  | ts :: rest, known, c, hregistry, hc => by
    rw [clauses]
    refine (clause_yields hregistry hnested hc ts).bind (fun first => ?_)
      fun {first c₁ known₁} hgrow hc₁ hfirst => ?_
    · refine (clauses_adds hnested.adds rest).bind fun others => ?_
      cases first <;> exact Ledger.Adds.pure _
    · refine (clauses_yields hnested (hregistry.mono hgrow.keeps) hc₁).bind (fun others => ?_)
        fun {others c₂ known₂} hgrow₂ hc₂ hothers => ?_
      · cases first <;> exact fun _ => Nat.le_refl _
      · have hkept := List.Subset.trans hfirst hgrow₂.keeps
        rw [List.append_subset] at hothers
        obtain ⟨htests, hplans⟩ := hothers
        cases first with
        | inl t =>
          refine .pure hc₂ ?_
          rw [plansOfTests, List.append_subset, List.append_subset]
          exact ⟨⟨hkept, htests⟩, hplans⟩
        | inr plan =>
          refine .pure hc₂ ?_
          rw [plansOfPlans, List.append_subset, List.append_subset]
          exact ⟨htests, hkept, hplans⟩

lemma selectorList_yields (hregistry : registry.Draws known)
    (hnested : Provides registry nested) (hc : CompileCaches.stock.Sound known c)
    (list : SelectorList) :
    CompileCaches.stock.Yields known c (selectorList registry nested list c)
      fun known' made => made.plans ⊆ known' := by
  rw [selectorList]
  refine (clauses_yields hnested hregistry hc).map fun {known' sorted} hsorted => ?_
  obtain ⟨tests, plans⟩ := sorted
  cases tests with
  | nil => exact hsorted
  | cons t rest => simpa [Compiled.plans, plansOfTest] using hsorted

end

variable [PatternLibrary]

lemma provides_nestedWithin {registry : Registry} {depth : Nat}
    (h : ∀ {text : String} {known : List Plan} {c : CompileCaches}, registry.Draws known →
      CompileCaches.stock.Sound known c → CompileCaches.stock.Yields known c
        (textWithin registry depth text c) fun known' made => made.value.plans ⊆ known') :
    Provides registry (nestedWithin registry depth) where
  adds := nestedWithin_adds depth
  yields _ _ _ hregistry hc := (h hregistry hc).map fun hmade => hmade

/-- From sound caches a text compiles to a selector that is made of plans of different names, among
them all that the caches hold. -/
theorem textWithin_yields {registry : Registry} :
    ∀ {depth : Nat} {text : String} {known : List Plan} {c : CompileCaches},
      registry.Draws known → CompileCaches.stock.Sound known c →
      CompileCaches.stock.Yields known c (textWithin registry depth text c)
        fun known' made => made.value.plans ⊆ known'
  | 0, _, _, _, _, hc => .throw hc
  | depth + 1, text, known, c, hregistry, hc => by
    have hlooked : CompileCaches.stock.Sound known
        { c with compiled := (c.compiled.get text).2 } := sound_of_same hc rfl rfl
    rw [textWithin, modifyGet_bind]
    dsimp only
    cases hget : (c.compiled.get text).1 with
    | some selector =>
      refine .same hlooked rfl fun made hmade => ?_
      obtain rfl := Except.ok.inj hmade
      exact hc.holds (text, selector) (BoundedCache.mem_of_get hget)
    | none =>
      have hnested : Provides registry (nestedWithin registry depth) :=
        provides_nestedWithin textWithin_yields
      have hsame : PlansGrow known c.named known c.named := .refl known _
      have hissues : ∀ made : Compiled, (CompileCaches.ledger registry).Adds (do
          let selector ← issue made
          modify fun c => { c with compiled := c.compiled.insert text selector }
          return selector) := fun made =>
        (issue_adds made).bind fun issued =>
          (Ledger.Adds.modify fun _ => Nat.le_refl _).bind fun _ => .pure issued
      dsimp only
      refine .after hsame ((tokenize_yields hlooked text).bind
        (fun list => (selectorList_adds hnested.adds list.value).bind hissues)
        fun {list c₁ known₁} hgrow hc₁ _ => ?_)
      refine (selectorList_yields (hregistry.mono hgrow.keeps) hnested hc₁ list.value).bind
        hissues fun {made c₂ known₂} _ hc₂ hmade => ?_
      rw [issue_bind, modify_bind]
      refine .same ⟨hc₂.apart, hc₂.named, fun entry hentry => ?_⟩ rfl fun a ha => ?_
      · obtain rfl | hold := BoundedCache.mem_of_mem_insert hentry
        · exact hmade
        · exact hc₂.holds entry hold
      · obtain rfl := Except.ok.inj ha
        exact hmade

lemma text_yields {registry : Registry} {known : List Plan} {c : CompileCaches}
    (hregistry : registry.Draws known) (hc : CompileCaches.stock.Sound known c) (text : String) :
    CompileCaches.stock.Yields known c (Compile.text registry text c)
      fun known' made => made.value.plans ⊆ known' :=
  textWithin_yields hregistry hc

end Compile

end TreeQuery
