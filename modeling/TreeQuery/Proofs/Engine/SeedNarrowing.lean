import TreeQuery.Proofs.Engine.PageIndexes

/-!
# Engines with and without seeds

Whether an engine starts from the seeds of an index does not show in an answer, if the class that
is looked up has no blank and the text without the token that is looked up is read as the tokens
that are left. Where it is not, the answer of the engine that starts from seeds is what that text
selects among the elements that the seed describes.
-/

namespace TreeQuery

/-- Whether an engine may be asked about a host: its document is a forest, its indexes find
elements, and what it advertises is known. -/
structure Host.Admissible (A : Adverts) (h : Host) : Prop where
  forest : h.document.IsForest
  finds : h.FindsElements
  known : h.Known A

lemma Host.Exact.admissible {A : Adverts} {h : Host} (hexact : h.Exact) (hknown : h.Known A) :
    h.Admissible A :=
  ⟨hexact.forest, hexact.findsElements, hknown⟩

namespace Host

variable [PatternLibrary] {h : Host} (hexact : h.Exact) {r : Registry} (hr : r.Steady)
include hexact hr

lemma Exact.select_seedNarrowing (x : ExecutionSettings) (narrowing : Bool) {query : String}
    (hnarrows : ∀ c, r.plain query = .ok c → c.isElementOnly = true → c.list.Narrows h.features)
    (context : NodeId) :
    h.select r { x with seedNarrowing := narrowing } query context =
      h.select r { x with seedNarrowing := false } query context := by
  have hshortcut : h.shortcut { x with seedNarrowing := narrowing } query context =
      h.shortcut { x with seedNarrowing := false } query context := rfl
  rw [select, select, hshortcut]
  split
  · split
    · rfl
    · cases hc : r.plain query with
      | error fault => rfl
      | ok c =>
        have hanswer := fun x => hexact.answer_eq_scan hr x hc (hnarrows c hc) context
        change h.answer r _ c context = h.answer r _ c context
        rw [hanswer, hanswer]
  · rfl

end Host

namespace Engine

section

variable [PatternLibrary]

variable {A : Adverts} {r : Registry} {settings : Settings} {N : Naming} {e : Engine}

/-- What questions about hosts leave of an engine. -/
def afterAll (e : Engine) : List (Host × Query) → Engine
  | [] => e
  | (h, query) :: rest => (query.ask h e).2.afterAll rest

lemma named_le_afterAll (asked : List (Host × Query)) (e : Engine) :
    e.caches.named ≤ (e.afterAll asked).caches.named := by
  induction asked generalizing e with
  | nil => exact Nat.le_refl _
  | cons question rest ih =>
    have hadds : (ledger (fun _ => none) .standard e.settings).Adds
        (question.2.ask question.1) := ask_adds question.1 question.2
    exact Nat.le_trans (hadds e) (ih _)

lemma Sound.afterAll (hr : r.Steady) {asked : List (Host × Query)} (he : e.Sound A r settings N)
    (hasked : ∀ question ∈ asked, question.1.Admissible A)
    (hlt : (e.afterAll asked).caches.named < UInt32.size) :
    ∃ N', (e.afterAll asked).Sound A r settings N' := by
  induction asked generalizing e N with
  | nil => exact ⟨N, he⟩
  | cons question rest ih =>
    obtain ⟨hfirst, hrest⟩ := List.forall_mem_cons.mp hasked
    have hnext := Nat.lt_of_le_of_lt (named_le_afterAll rest (question.2.ask question.1 e).2) hlt
    obtain ⟨N', -, hsound, -⟩ := ask_follows hr he hfirst.forest hfirst.finds hfirst.known
      question.2 hnext
    exact ih hsound hrest hlt

/-- After any questions, a query selects what it selects without any caches. -/
theorem select_afterAll (hnew : Engine.new settings = .ok e) {asked : List (Host × Query)}
    (hasked : ∀ question ∈ asked, question.1.Admissible A) {h : Host} (hh : h.Admissible A)
    (query : String) (context : NodeId)
    (hlt : (select h query context (e.afterAll asked)).2.caches.named < UInt32.size) :
    (select h query context (e.afterAll asked)).1 =
      h.select .standard settings.execution query context := by
  have hadds : (ledger A .standard settings).Adds (select h query context) :=
    select_adds h query context
  obtain ⟨N, hsound⟩ := (sound_new hnew A).afterAll Registry.standard_steady hasked
    (Nat.lt_of_le_of_lt (hadds _) hlt)
  obtain ⟨_, -, -, hagree⟩ := select_follows Registry.standard_steady hsound hh.forest hh.finds
    hh.known query context hlt
  exact hagree.eq

/-- An engine that starts from seeds selects what an engine that does not selects, where the list
that is read may be narrowed; and where it may not, what is left of its text is matched against the
elements that the seed describes. -/
theorem select_of_seedNarrowing {e e' : Engine}
    (hnew : Engine.new (settings.withSeedNarrowing true) = .ok e)
    (hnew' : Engine.new (settings.withSeedNarrowing false) = .ok e')
    (hfast : settings.execution.fastPath = true) (hnative : settings.execution.nativeSelect = false)
    {asked asked' : List (Host × Query)}
    (hasked : ∀ question ∈ asked, question.1.Admissible A)
    (hasked' : ∀ question ∈ asked', question.1.Admissible A)
    {h : Host} (hexact : h.Exact) (hknown : h.Known A) (query : String) (context : NodeId)
    (hlt : (select h query context (e.afterAll asked)).2.caches.named < UInt32.size)
    (hlt' : (select h query context (e'.afterAll asked')).2.caches.named < UInt32.size) :
    ((∀ c, Registry.standard.plain query = .ok c → c.isElementOnly = true →
        c.list.Narrows h.features) →
      (select h query context (e.afterAll asked)).1 =
        (select h query context (e'.afterAll asked')).1) ∧
      ∀ {c plan}, h.document.isQueryRoot context = true →
        h.quick h.features query context = none → Registry.standard.plain query = .ok c →
        c.isElementOnly = true → c.list.seedPlan h.features = some plan →
        (select h query context (e'.afterAll asked')).1 = .ok (h.scan c context) ∧
          (select h query context (e.afterAll asked)).1 =
            let found := (h.document.descendantElements context).filter (plan.seed.describes h)
            if found = [] then .ok []
            else (Registry.standard.plain plan.reduced).map fun reduced =>
              reduced.result (h.scope (some context)) found := by
  have hsteady := Registry.standard_steady
  have hadmissible := hexact.admissible hknown
  rw [select_afterAll hnew hasked hadmissible query context hlt,
    select_afterAll hnew' hasked' hadmissible query context hlt']
  refine ⟨fun hnarrows =>
    hexact.select_seedNarrowing hsteady settings.execution true hnarrows context, ?_⟩
  intro c plan hroot hquick hc honly hplan
  have hselect : ∀ x : ExecutionSettings, x.fastPath = true → x.nativeSelect = false →
      h.select .standard x query context = h.answer .standard x c context := by
    intro x hx hx'
    have hshortcut : h.shortcut x query context = none := by
      rw [Host.shortcut, hx, hx', hquick]
      rfl
    rw [Host.select, if_pos hroot, hshortcut, hc]
    rfl
  rw [hselect (settings.withSeedNarrowing false).execution hfast hnative,
    hselect (settings.withSeedNarrowing true).execution hfast hnative]
  have hallowed : h.seedPlan (settings.withSeedNarrowing true).execution c = some plan := by
    have hfast' : (settings.withSeedNarrowing true).execution.fastPath = true := hfast
    rw [Host.seedPlan, hfast', honly, hplan]
    rfl
  have hrefused : h.seedPlan (settings.withSeedNarrowing false).execution c = none := by
    have hfast' : (settings.withSeedNarrowing false).execution.fastPath = true := hfast
    rw [Host.seedPlan, hfast']
    rfl
  rw [Host.answer, hrefused, Host.answer, hallowed]
  have hplanAsked := SelectorList.isAsked_of_seedPlan hplan
  exact ⟨rfl, hexact.narrowTo_eq hsteady hplanAsked context⟩

end

section Sample

attribute [local instance] PatternLibrary.standard

/-- A list and its two items on a page with all indexes. -/
def seedsPage : HookedPage :=
  { document := Document.sample, identity := 0, features := .indexed, hook := none }

lemma exact_seedsPage : seedsPage.host.Exact :=
  HookedPage.exact_host (Document.isForest_sample false)
    (Document.namesOnce_of_lt (by with_unfolding_all decide))

def seedsAdverts : Adverts := fun _ => some (.indexed, false)

def seedsAsked : List (Host × Query) :=
  [(seedsPage.host, .select "li.c#x" 0), (seedsPage.host, .test "ul > li" 3)]

def seedsSettings : Settings := Settings.standard.withNativeSelect false

lemma seedsNew : Engine.new (seedsSettings.withSeedNarrowing true) =
    .ok (fresh (seedsSettings.withSeedNarrowing true)) := rfl

lemma seedsNew' : Engine.new (seedsSettings.withSeedNarrowing false) =
    .ok (fresh (seedsSettings.withSeedNarrowing false)) := rfl

def seedsLeft : List Token := [⟨"li", .tag "li"⟩, ⟨".c", .className "c"⟩]

lemma narrows_sample {c : Compiled} (hc : Registry.standard.plain "li.c#x" = .ok c) :
    c.list.Narrows seedsPage.host.features := by
  have hparse : SelectorList.parse "li.c#x" =
      .ok ⟨"li.c#x", [seedsLeft ++ [⟨"#x", .id "x"⟩]]⟩ := by with_unfolding_all rfl
  rw [Registry.parse_of_plain Registry.standard_steady hc] at hparse
  rw [Except.ok.inj hparse]
  intro plan hplan
  have heq : SelectorList.seedPlan ⟨"li.c#x", [seedsLeft ++ [⟨"#x", .id "x"⟩]]⟩ .indexed =
      some ⟨.id "x", "li.c"⟩ := by with_unfolding_all rfl
  obtain rfl := Option.some.inj (heq.symm.trans hplan)
  refine ⟨trivial, fun left hleft => ?_⟩
  have hseeds : SelectorList.leftover ⟨"li.c#x", [seedsLeft ++ [⟨"#x", .id "x"⟩]]⟩ .indexed =
      some seedsLeft := by with_unfolding_all rfl
  obtain rfl := Option.some.inj (hseeds.symm.trans hleft)
  exact ⟨⟨"li.c", [seedsLeft]⟩, by with_unfolding_all rfl, by with_unfolding_all decide⟩

/-- The class `b c` is no word, but the second item passes its test. -/
theorem select_of_seedNarrowing_sample :
    ∃ e e', Engine.new (seedsSettings.withSeedNarrowing true) = .ok e ∧
      Engine.new (seedsSettings.withSeedNarrowing false) = .ok e' ∧
      (select seedsPage.host "li.c#x" 0 (e.afterAll seedsAsked)).1.toOption = some [3] ∧
      (select seedsPage.host "li.c#x" 0 (e.afterAll seedsAsked)).1 =
        (select seedsPage.host "li.c#x" 0 (e'.afterAll [])).1 ∧
      (select seedsPage.host ".b\\ c" 0 (e'.afterAll [])).1.toOption = some [3] ∧
      (select seedsPage.host ".b\\ c" 0 (e.afterAll seedsAsked)).1 = .ok [] := by
  have hknown : seedsPage.host.Known seedsAdverts := rfl
  have hadmissible := exact_seedsPage.admissible hknown
  have hasked : ∀ question ∈ seedsAsked, question.1.Admissible seedsAdverts := by
    intro question hquestion
    simp only [seedsAsked, List.mem_cons, List.not_mem_nil, or_false] at hquestion
    obtain rfl | rfl := hquestion
    · exact hadmissible
    · exact hadmissible
  have hnone : ∀ question ∈ ([] : List (Host × Query)), question.1.Admissible seedsAdverts := by
    simp
  obtain ⟨hsame, -⟩ := select_of_seedNarrowing seedsNew seedsNew' rfl rfl hasked hnone
    exact_seedsPage hknown "li.c#x" 0 (by decide +kernel) (by decide +kernel)
  obtain ⟨-, hdiffers⟩ := select_of_seedNarrowing seedsNew seedsNew' rfl rfl hasked hnone
    exact_seedsPage hknown ".b\\ c" 0 (by decide +kernel) (by decide +kernel)
  refine ⟨_, _, seedsNew, seedsNew', by decide +kernel, hsame fun c hc _ => narrows_sample hc,
    by decide +kernel, ?_⟩
  obtain ⟨c, hc, honly, hplan⟩ : ∃ c, Registry.standard.plain ".b\\ c" = .ok c ∧
      c.isElementOnly = true ∧ c.list.seedPlan .indexed = some ⟨.className "b c", "*"⟩ := by
    have hcompiled : (Registry.standard.plain ".b\\ c").toOption.map (fun c =>
        (c.isElementOnly, c.list.seedPlan .indexed)) =
        some (true, some ⟨.className "b c", "*"⟩) := by decide +kernel
    cases hc : Registry.standard.plain ".b\\ c" with
    | error fault => simp [hc, Except.toOption] at hcompiled
    | ok c =>
      rw [hc] at hcompiled
      obtain ⟨honly, hplan⟩ := Prod.mk.inj (Option.some.inj hcompiled)
      exact ⟨c, rfl, honly, hplan⟩
  have hword : ¬(Seed.className "b c").IsWord := fun hblank => by
    simpa [isBlank] using hblank ' ' (by decide)
  have hfound : (seedsPage.host.document.descendantElements 0).filter
      ((Seed.className "b c").describes seedsPage.host) = [] :=
    List.filter_eq_nil_iff.mpr fun n _ => by simp [Seed.describes_eq_false hword]
  obtain ⟨-, hon⟩ := hdiffers (by decide +kernel) (by decide +kernel) hc honly hplan
  rw [hon]
  dsimp only
  rw [hfound, if_pos rfl]

end Sample

end Engine

end TreeQuery
