import TreeQuery.Proofs.Compile.Tidy
import TreeQuery.Proofs.Engine.History
import TreeQuery.Proofs.Engine.PageIndexes

/-!
# The shape of answers

What a query selects on a page that does not answer by itself is in document order: elements below
the context, or below its parent where siblings may be found. This holds for every engine in use,
whatever indexes and comparator the page has and however many names were given.
-/

namespace TreeQuery

/-- Whether a list names elements below a scope in document order. -/
structure Document.ListsBelow (d : Document) (scope : NodeId) (found : List NodeId) : Prop where
  ordered : found.Pairwise d.Precedes
  isElement : ∀ n ∈ found, d.isElement n = true
  below : ∀ n ∈ found, Relation.TransGen (Linked d.parent) n scope

namespace Document

variable {d : Document} {scope : NodeId} {found : List NodeId}

lemma listsBelow_nil (d : Document) (scope : NodeId) : d.ListsBelow scope [] :=
  ⟨.nil, fun _ h => (nomatch h), fun _ h => nomatch h⟩

lemma IsForest.listsBelow (hforest : d.IsForest)
    (hsub : found.Sublist (d.descendantElements scope)) : d.ListsBelow scope found where
  ordered := (hforest.pairwise_descendantElements scope).sublist hsub
  isElement _ hn := isElement_of_descendantElements (hsub.subset hn)
  below _ hn := (hforest.mem_descendantElements.mp (hsub.subset hn)).1

/-- What stands below a context stands below its parent too. -/
theorem ListsBelow.searchRoot (h : d.ListsBelow scope found) (siblingLed : Bool) :
    d.ListsBelow (d.searchRoot scope siblingLed) found := by
  unfold Document.searchRoot
  split
  · cases hp : d.parent scope with
    | none => exact h
    | some p => exact ⟨h.ordered, h.isElement, fun n hn => (h.below n hn).tail hp⟩
  · exact h

lemma ListsBelow.nodup (hforest : d.IsForest) (h : d.ListsBelow scope found) : found.Nodup := by
  refine h.ordered.imp ?_
  rintro a _ hab rfl
  exact hforest.not_precedes_self a hab

end Document

/-- Whether some clause of a query starts with a sibling combinator. -/
def SelectorList.isSiblingLed (query : String) : Bool :=
  match parse query with
  | .ok list => list.leadsWithSibling
  | .error _ => false

/-- Whether all that the indexes of a host find under a context stands below it, and the host
compares in document order. -/
structure Host.Searches (h : Host) : Prop where
  forest : h.document.IsForest
  compares : h.ComparesInOrder
  finds : ∀ {seed : Seed} {context n}, n ∈ seed.fetch h context →
    n ∈ h.document.descendantElements context

/-- Whether a host searches by its indexes and answers no query by itself. -/
structure Host.Serves (h : Host) : Prop extends h.Searches where
  declines : ∀ query context, h.native query context = none

lemma Host.Searches.fetch_sublist {h : Host} (hh : h.Searches) (seed : Seed)
    (context : NodeId) :
    (seed.fetch h context).Sublist (h.document.descendantElements context) :=
  h.uniqueSort_sublist hh.forest hh.compares fun _ hn => hh.finds (Host.mem_uniqueSort.mpr hn)

lemma HookedPage.searches_host {p : HookedPage} (hforest : p.document.IsForest) :
    p.host.Searches where
  forest := isForest_host hforest
  compares := comparesInOrder_host hforest
  finds hn := by
    rw [document_host]
    exact mem_descendantElements_of_fetch hn

lemma HookedPage.serves_host {p : HookedPage} (hhook : p.hook = none)
    (hforest : p.document.IsForest) : p.host.Serves where
  toSearches := searches_host hforest
  declines query context := by
    unfold HookedPage.host
    rw [hhook]
    rfl

namespace Engine

open Fallible (Keeps)

/-- Whether the registry is the standard one and all that is compiled thins. -/
structure Tidy (e : Engine) : Prop where
  registry : e.registry = .standard
  caches : e.caches.Tidy

variable {α : Type}

lemma tidy_fresh (settings : Settings) : (fresh settings).Tidy :=
  ⟨rfl, CompileCaches.tidy_empty _⟩

lemma Tidy.clearCaches {e : Engine} (he : e.Tidy) : e.clearCaches.Tidy :=
  ⟨he.registry, he.caches.clear⟩

lemma liftCompile_keeps {action : Compile α} {P : α → Prop}
    (h : Keeps CompileCaches.Tidy action P) : Keeps Tidy (liftCompile action) P := fun e he =>
  ⟨⟨he.registry, (h e.caches he.caches).1⟩, (h e.caches he.caches).2⟩

lemma liftRun_keeps {action : Run α} {P : α → Prop} (h : ∀ m, P (action m).1) :
    Keeps Tidy (liftRun action) P := fun e he =>
  ⟨⟨he.registry, he.caches⟩, fun _ ha => Except.ok.inj ha ▸ h e.memo⟩

lemma count_keeps (change : QueryStats → QueryStats) : Keeps Tidy (count change) fun _ => True :=
  Keeps.modify fun _ he => ⟨he.registry, he.caches⟩

lemma tokenize_keeps (query : String) :
    Keeps Tidy (tokenize query) fun list => SelectorList.parse query = .ok list.value :=
  liftCompile_keeps (Compile.tokenize_keeps query)

lemma adapt_keeps (h : Host) (root : NodeId) : Keeps Tidy (adapt h root) fun _ => True := by
  have hrenew : ∀ fresh, Keeps Tidy (adapt.renew fresh) fun _ => True := fun fresh =>
    (Keeps.modify fun _ he => ⟨he.registry, he.caches⟩).bind fun _ _ => Keeps.pure trivial
  refine Keeps.get.bind fun e _ => ?_
  split
  · split
    · exact Keeps.pure trivial
    · exact hrenew _
  · exact hrenew _

lemma beginQuery_keeps (h : Host) (n : NodeId) :
    Keeps Tidy (beginQuery h n) fun _ => True := by
  refine (adapt_keeps h _).bind fun adapter _ => ?_
  exact (Keeps.modify fun _ he => ⟨he.registry, he.caches⟩).bind fun _ _ => Keeps.pure trivial

lemma execute_keeps {h : Host} {c : Compiled} (hc : c.Thins) (context : Option NodeId) (xml : Bool)
    {scope : NodeId} {pool : List NodeId}
    (hpool : h.Searches → pool.Sublist (h.document.descendantElements scope)) :
    Keeps Tidy (liftRun (c.execute ⟨h, context, xml⟩ pool)) fun found =>
      h.Searches → h.document.ListsBelow scope found :=
  liftRun_keeps fun m hh => hh.forest.listsBelow <|
    Compiled.execute_sublist (s := ⟨h, context, xml⟩) hh.forest hh.compares hc (hpool hh) m

lemma shortcut_keeps (h : Host) (query : String) (context : NodeId) (adapter : Adapter) :
    Keeps Tidy (shortcut h query context adapter) fun found? =>
      h.Serves → ∀ found, found? = some found → h.document.ListsBelow context found := by
  refine Keeps.get.bind fun e _ => ?_
  dsimp only
  split
  · rename_i found hquick
    refine (count_keeps _).bind fun _ _ => Keeps.pure fun hh found' hfound => ?_
    obtain rfl := Option.some.inj hfound
    split at hquick
    · obtain ⟨seed, -, rfl⟩ := Option.map_eq_some_iff.mp hquick
      exact hh.forest.listsBelow (hh.toSearches.fetch_sublist seed context)
    · exact nomatch hquick
  · split
    · split
      · rename_i found hnative
        refine (count_keeps _).bind fun _ _ => Keeps.pure fun hh => ?_
        rw [hh.declines] at hnative
        exact nomatch hnative
      · exact (count_keeps _).bind fun _ _ => Keeps.pure fun _ _ h => nomatch h
    · exact Keeps.pure fun _ _ h => nomatch h

variable [PatternLibrary]

lemma compile_keeps (query : String) :
    Keeps Tidy (compile query) fun c =>
      SelectorList.parse query = .ok c.value.list ∧ c.value.Thins := by
  refine Keeps.get.bind fun e he => ?_
  rw [he.registry]
  exact liftCompile_keeps (Compile.textWithin_keeps Registry.standard_thins _ query)

/-- A compiled selector that thins selects elements in document order. -/
theorem answer_keeps (h : Host) {c : Compiled} (hc : c.Thins) (context : NodeId)
    (adapter : Adapter) :
    Keeps Tidy (answer h c context adapter) fun found =>
      h.Searches → h.document.ListsBelow (c.searchRoot h.document context) found := by
  refine Keeps.get.bind fun e _ => ?_
  dsimp only
  split
  · rename_i plan _
    refine (count_keeps _).bind fun _ _ => ?_
    have hseeds := fun hh : h.Searches => hh.fetch_sublist plan.seed context
    split
    · exact Keeps.pure fun hh => (hh.forest.listsBelow (hseeds hh)).searchRoot _
    · refine (compile_keeps plan.reduced).bind fun reduced hreduced => ?_
      exact (execute_keeps hreduced.2 (some context) adapter.xml hseeds).mono fun found hfound hh =>
        (hfound hh).searchRoot _
  · refine (count_keeps _).bind fun _ _ => ?_
    exact execute_keeps hc (some context) adapter.xml fun _ => .refl _

/-- A query selects elements in document order. -/
theorem select_keeps (h : Host) (query : String) (context : NodeId) :
    Keeps Tidy (select h query context) fun found => h.Serves →
      h.document.ListsBelow
        (h.document.searchRoot context (SelectorList.isSiblingLed query)) found := by
  unfold select
  split
  · refine (count_keeps _).bind fun _ _ => (beginQuery_keeps h context).bind fun adapter _ => ?_
    refine (shortcut_keeps h query context adapter).bind fun found? hfound => ?_
    cases found? with
    | some found => exact Keeps.pure fun hh => (hfound hh found rfl).searchRoot _
    | none =>
      refine (compile_keeps query).bind fun c hc => ?_
      refine (answer_keeps h hc.2 context adapter).mono fun found hfound hh => ?_
      have hled : SelectorList.isSiblingLed query = c.value.leadsWithSibling := by
        rw [SelectorList.isSiblingLed, hc.1]
        rfl
      rw [hled]
      exact hfound hh.toSearches
  · exact Keeps.pure fun _ => Document.listsBelow_nil _ _

lemma selectCompiled_keeps (h : Host) {c : Compiled} (hc : c.Thins) (context : NodeId) :
    Keeps Tidy (selectCompiled h c context) fun found => h.Searches →
      h.document.ListsBelow (c.searchRoot h.document context) found := by
  unfold selectCompiled
  split
  · refine (count_keeps _).bind fun _ _ => (beginQuery_keeps h context).bind fun adapter _ => ?_
    exact answer_keeps h hc context adapter
  · exact Keeps.pure fun _ => Document.listsBelow_nil _ _

lemma filterCandidates_keeps (h : Host) (query : String) (candidates : List NodeId) :
    Keeps Tidy (filterCandidates h query candidates) fun _ => True := by
  refine (compile_keeps query).bind fun c _ => ?_
  split
  · exact Keeps.pure trivial
  · exact (beginQuery_keeps h _).bind fun _ _ => liftRun_keeps fun _ => trivial

lemma matchesElement_keeps (h : Host) (n : NodeId) (query : String) :
    Keeps Tidy (matchesElement h n query) fun _ => True := by
  refine (compile_keeps query).bind fun c _ => ?_
  split
  · exact (beginQuery_keeps h n).bind fun _ _ => liftRun_keeps fun _ => trivial
  · exact Keeps.pure trivial

lemma ask_keeps (h : Host) (query : Query) : Keeps Tidy (query.ask h) fun _ => True := by
  cases query with
  | select text context =>
    exact (select_keeps h text context).bind fun _ _ => Keeps.pure trivial
  | filter text candidates =>
    exact (filterCandidates_keeps h text candidates).bind fun _ _ => Keeps.pure trivial
  | test text n => exact (matchesElement_keeps h n text).bind fun _ _ => Keeps.pure trivial

end Engine

namespace World

/-- Whether the engine is tidy and all selectors that it handed out thin. -/
structure Tidy (w : World) : Prop where
  engine : w.engine.Tidy
  issued : ∀ c ∈ w.issued, c.Thins

variable {w : World}

lemma tidy_start {settings : Settings} {e : Engine} (hnew : Engine.new settings = .ok e) :
    (start e).Tidy where
  engine := Engine.eq_fresh_of_new hnew ▸ Engine.tidy_fresh settings
  issued _ h := nomatch h

section

variable [PatternLibrary]

lemma Tidy.act (hw : w.Tidy) (event : Event) : (w.act event).1.Tidy := by
  cases event with
  | create xml => exact ⟨hw.engine, hw.issued⟩
  | clone page => exact ⟨hw.engine, hw.issued⟩
  | mutate page nodes forest => exact ⟨hw.engine, hw.issued⟩
  | withFeatures page features => exact ⟨hw.engine, hw.issued⟩
  | withHook page hook => exact ⟨hw.engine, hw.issued⟩
  | ask page query =>
    rw [World.act]
    split
    · rename_i p _
      exact ⟨(Engine.ask_keeps p.host query w.engine hw.engine).1, hw.issued⟩
    · exact hw
  | selectCompiled page selector context =>
    rw [World.act]
    split
    · rename_i p c _ hc
      have hthins := hw.issued c (List.mem_of_getElem? hc)
      exact ⟨(Engine.selectCompiled_keeps p.host hthins context w.engine hw.engine).1, hw.issued⟩
    · exact hw
  | compile text =>
    obtain ⟨hengine, hmade⟩ := Engine.compile_keeps text w.engine hw.engine
    rw [World.act]
    rcases hout : Engine.compile text w.engine with ⟨_ | c, engine⟩
    · rw [hout] at hengine
      exact ⟨hengine, hw.issued⟩
    · rw [hout] at hengine hmade
      refine ⟨hengine, fun c' hc' => ?_⟩
      obtain hc' | hc' := List.mem_append.mp hc'
      · exact hw.issued c' hc'
      · exact List.mem_singleton.mp hc' ▸ (hmade c rfl).2
  | tokenize text => exact ⟨(Engine.tokenize_keeps text w.engine hw.engine).1, hw.issued⟩
  | clearCaches => exact ⟨hw.engine.clearCaches, hw.issued⟩

lemma Tidy.after (hw : w.Tidy) (events : List Event) : (w.after events).Tidy := by
  induction events generalizing w with
  | nil => exact hw
  | cons event rest ih => exact ih (hw.act event)

/-- Whatever has happened to an engine, a query on a page without a hook selects elements in document
order, each once, below the context or where siblings of it may be found. -/
theorem select_listsBelow {settings : Settings} {e : Engine} (hnew : Engine.new settings = .ok e)
    (events : List Event) {p : HookedPage} (hhook : p.hook = none)
    (hforest : p.document.IsForest) {query : String} {context : NodeId} {found : List NodeId}
    (hfound : (Engine.select p.host query context ((start e).after events).engine).1 = .ok found) :
    found.Nodup ∧ p.document.ListsBelow
      (p.document.searchRoot context (SelectorList.isSiblingLed query)) found := by
  have hengine := ((tidy_start hnew).after events).engine
  have hlists := (Engine.select_keeps p.host query context _ hengine).2 found hfound
    (p.serves_host hhook hforest)
  rw [p.document_host] at hlists
  exact ⟨hlists.nodup hforest, hlists⟩

end

section Sample

attribute [local instance] PatternLibrary.standard

/-- The sample page with its indexes and comparator. -/
def indexedPage : HookedPage :=
  { document := ⟨Document.sample.nodes, false⟩, identity := 7, features := .indexed, hook := none }

/-- One clause is led by a sibling combinator, so that elements are found beside the context. -/
theorem select_listsBelow_sample :
    Engine.new .standard = .ok (.fresh .standard) ∧ indexedPage.hook = none ∧
      indexedPage.document.IsForest ∧
      (Engine.select indexedPage.host "~ #x, li" 2
        ((start (.fresh .standard)).after sampleRun).engine).1 = .ok [2, 3] ∧
      [2, 3].Nodup ∧ indexedPage.document.ListsBelow
        (indexedPage.document.searchRoot 2 (SelectorList.isSiblingLed "~ #x, li")) [2, 3] := by
  have hforest : indexedPage.document.IsForest := Document.isForest_sample false
  have hfound : (Engine.select indexedPage.host "~ #x, li" 2
      ((start (.fresh .standard)).after sampleRun).engine).1 = .ok [2, 3] :=
    Fallible.eq_ok_of_toOption (by decide +kernel)
  exact ⟨Engine.new_standard, rfl, hforest, hfound,
    select_listsBelow Engine.new_standard sampleRun rfl hforest hfound⟩

end Sample

end World

end TreeQuery
