import TreeQuery.Proofs.Compile.Positionals
import TreeQuery.Proofs.Engine.Containment

/-!
# Selections split by place

What a clause selects is split by the positional pseudo-classes at its end. They add a last
narrowing step to the clause and change nothing before it: the same names are given, and the clause
is run from the same memo.
-/

namespace TreeQuery

section Narrowing

variable {choose : List NodeId → List NodeId} (hnil : choose [] = [])
include hnil

/-- A choice at the end of the narrowing steps is made from what the steps before it leave. -/
theorem narrow_choice (s : Scope) : ∀ (steps : List Matcher) (found : List NodeId) (m : Memo),
    (narrow (steps ++ [.set (.rearrange choose)]) s found m).1 =
      choose (narrow steps s found m).1
  | [], found, m => by
    cases found with
    | nil => exact hnil.symm
    | cons n rest => rfl
  | step :: steps, found, m => by
    cases found with
    | nil => exact hnil.symm
    | cons n rest => exact narrow_choice s steps _ _

lemma Stage.run_choice (test : Test) (steps : List Matcher) (s : Scope) (pool : List NodeId)
    (m : Memo) :
    ((Stage.mk test (steps ++ [.set (.rearrange choose)])).run s pool m).1 =
      choose ((Stage.mk test steps).run s pool m).1 :=
  narrow_choice hnil s steps _ _

lemma Plan.run_choice (id : MatcherId) (stages : List Stage) (test : Test)
    (steps : List Matcher) (siblingLed : Bool) (s : Scope) (pool : List NodeId) (m : Memo) :
    ((Plan.mk id stages (.mk test (steps ++ [.set (.rearrange choose)])) siblingLed).run s pool
      m).1 = choose ((Plan.mk id stages (.mk test steps) siblingLed).run s pool m).1 := by
  rw [Plan.run_eq, Plan.run_eq]
  exact Stage.run_choice hnil test steps s pool _

end Narrowing

lemma Compiled.execute_plan (c : Clause) (plan : Plan) (s : Scope) (pool : List NodeId)
    (m : Memo) :
    ((Compiled.ofClause c (.inr plan)).execute s pool m).1 = (plan.run s pool m.bump).1 := by
  refine Eq.trans ?_ (s.host.merge_singleton _)
  change s.host.merge [[], (plan.run s pool m.bump).1] = _
  simp [Host.merge]

lemma Compiled.execute_test (c : Clause) (t : Test) (s : Scope) (pool : List NodeId) (m : Memo) :
    ((Compiled.ofClause c (.inl t)).execute s pool m).1 = (pool.filterM (t.eval s) m.bump).1 :=
  s.host.merge_singleton _

lemma Compiled.searchRoot_ofClause (c : Clause) (made : Test ⊕ Plan) (d : Document)
    (context : NodeId) :
    (Compiled.ofClause c made).searchRoot d context = d.searchRoot context c.leadsWithSibling := by
  cases made <;>
    simp [Compiled.searchRoot, Compiled.leadsWithSibling, SelectorList.leadsWithSibling,
      Compiled.ofClause, Compiled.list]

namespace Compile

lemma addMatcher_set (d : Draft) (set : SetMatcher) :
    d.addMatcher (.set set) = { d with narrowers := some (d.narrowers.getD [] ++ [.set set]) } := by
  obtain ⟨plan, stages, tests, narrowers⟩ := d
  cases narrowers <;> rfl

lemma execute_finish (d : Draft) (c : Clause) (siblingLed : Bool) (s : Scope)
    (pool : List NodeId) (m : Memo) :
    ((Compiled.ofClause c (d.finish siblingLed)).execute s pool m).1 =
      ((Plan.mk d.plan d.stages (.mk (.conjunction d.tests) (d.narrowers.getD [])) siblingLed).run
        s pool m.bump).1 := by
  obtain ⟨plan, stages, tests, narrowers⟩ := d
  cases stages with
  | cons stage rest => exact Compiled.execute_plan c _ s pool m
  | nil =>
    cases narrowers with
    | some steps => exact Compiled.execute_plan c _ s pool m
    | none =>
      rw [Plan.run_eq]
      exact Compiled.execute_test c _ s pool m

variable [PatternLibrary]

/-- The draft of a clause before it is made a test or a plan. -/
def draft (registry : Registry) (nested : String → Compile Compiled) (c : Clause) :
    Compile Draft := do
  let plan ← freshId
  c.foldlM (addToken registry nested) (.start plan)

variable {nested : String → Compile Compiled}

/-- A token with a set matcher at the end of a clause adds one step to the draft. -/
theorem draft_append {c : Clause} {t : Token} {set : SetMatcher}
    (ht : simple .standard nested t.value = pure (.set set)) (hsimple : t.combinator? = none) :
    draft .standard nested (c ++ [t]) =
      (draft .standard nested c >>= fun d => pure (d.addMatcher (.set set))) := by
  have hadd : ∀ d, addToken .standard nested d t = pure (d.addMatcher (.set set)) := by
    intro d
    unfold addToken
    split
    · rename_i sign hvalue
      rw [Token.combinator?, hvalue] at hsimple
      cases hsimple
    · rw [ht]
      rfl
  unfold draft
  simp only [List.foldlM_append, List.foldlM_cons, List.foldlM_nil, hadd, bind_pure, bind_assoc]

lemma selectorList_single (registry : Registry) (c : Clause) :
    selectorList registry nested ⟨c.text, [c]⟩ =
      (draft registry nested c >>= fun d =>
        pure (Compiled.ofClause c (d.finish c.leadsWithSibling))) := by
  unfold selectorList
  rw [clauses, clauses, clause, draft]
  simp only [bind_assoc, pure_bind]
  refine bind_congr fun plan => bind_congr fun d => ?_
  cases d.finish c.leadsWithSibling <;> rfl

end Compile

namespace Engine

variable [PatternLibrary]

variable {e : Engine} {h : Host} {depth : Nat}

/-- The elements under a context that a clause selects by itself. -/
def selectClause (depth : Nat) (h : Host) (clause : Clause) (context : NodeId) :
    Action (List NodeId) :=
  selectList depth h ⟨clause.text, [clause]⟩ context

lemma selectClause_adds {A : Adverts} {settings : Settings} (c : Clause) (context : NodeId) :
    (ledger A .standard settings).Adds (selectClause depth h c context) :=
  selectList_adds context

lemma selectClause_eq (c : Clause) (context : NodeId) :
    selectClause depth h c context e =
      match Compile.draft .standard (Compile.nestedWithin .standard depth) c e.caches with
      | (.ok d, caches) =>
        selectCompiled h (Compiled.ofClause c (d.finish c.leadsWithSibling)) context
          { e with caches }
      | (.error fault, caches) => (.error fault, { e with caches }) := by
  rw [selectClause, selectList, compileList, Compile.selectorList_single, Fallible.bind_apply,
    liftCompile, Fallible.bind_apply]
  rcases Compile.draft .standard (Compile.nestedWithin .standard depth) c e.caches with
    ⟨_ | d, caches⟩ <;> rfl

/-- Without the fast path a query runs its selector below the search root, from a memo that is the
same whatever the selector. -/
theorem exists_execute (hfast : e.settings.execution.fastPath = false) (h : Host)
    (context : NodeId) : ∃ s m, ∀ selector : Compiled,
      (selectCompiled h selector context e).1 = .ok (if h.document.isQueryRoot context = true then
        (selector.execute s (h.document.descendantElements
          (selector.searchRoot h.document context)) m).1 else []) := by
  have hsettings := settings_beginQuery h context
    { e with stats := { e.stats with queries := e.stats.queries + 1 } }
  obtain ⟨adapter, e', hbegin⟩ := exists_beginQuery h context
    { e with stats := { e.stats with queries := e.stats.queries + 1 } }
  rw [hbegin] at hsettings
  refine ⟨⟨h, some context, adapter.xml⟩, e'.memo, fun selector => ?_⟩
  unfold selectCompiled
  split
  · have hanswer : answer h selector context adapter e' = (do
        count fun s => { s with fullScans := s.fullScans + 1 }
        liftRun (selector.execute ⟨h, some context, adapter.xml⟩
          (h.document.descendantElements (selector.searchRoot h.document context))) :
          Action (List NodeId)) e' := by
      rw [answer, get_bind, hsettings, hfast]
      rfl
    rw [Fallible.bind_apply]
    change ((beginQuery h context >>= fun adapter => answer h selector context adapter)
      { e with stats := { e.stats with queries := e.stats.queries + 1 } }).1 = _
    rw [Fallible.bind_apply, hbegin]
    exact congrArg Prod.fst hanswer
  · rfl

/-- What a clause with one more choice selects is chosen from what the clause selects, in every
state of the engine. -/
theorem selectClause_append (hfast : e.settings.execution.fastPath = false)
    {choose : List NodeId → List NodeId} (hnil : choose [] = []) {t : Token}
    (ht : ∀ nested, Compile.simple .standard nested t.value = pure (.set (.rearrange choose)))
    (hsimple : t.combinator? = none) (c : Clause) (context : NodeId) :
    (selectClause depth h (c ++ [t]) context e).1 =
      (selectClause depth h c context e).1.map choose := by
  have hleads : Clause.leadsWithSibling (c ++ [t]) = c.leadsWithSibling := by
    cases c with
    | nil => simp [Clause.leadsWithSibling, hsimple]
    | cons first rest => rfl
  rw [selectClause_eq, selectClause_eq, Compile.draft_append (ht _) hsimple, Fallible.bind_apply,
    hleads]
  rcases Compile.draft .standard (Compile.nestedWithin .standard depth) c e.caches with
    ⟨fault | d, caches⟩
  · rfl
  · obtain ⟨s, m, hexecute⟩ := exists_execute (e := { e with caches }) hfast h context
    change (selectCompiled h _ context { e with caches }).1 =
      (selectCompiled h _ context { e with caches }).1.map choose
    rw [hexecute, hexecute]
    refine congrArg Except.ok ?_
    split
    · rw [Compiled.searchRoot_ofClause, Compiled.searchRoot_ofClause, hleads,
        Compile.execute_finish, Compile.execute_finish, Compile.addMatcher_set]
      exact Plan.run_choice hnil _ _ _ _ _ _ _ _
    · exact hnil.symm

end Engine

/-- What the positional pseudo-classes make of a selection. `selected` is what is selected with
tokens at the end of a clause. -/
structure SplitByPlace (selected : List Token → Except SelectorError (List NodeId)) : Prop where
  /-- The places that are kept are computed within the range of the numbers, and they are places of
  the selection. A row that can be held in memory has a length in the range. -/
  places : ∀ {t p}, t.positional? = some p → ∀ {found}, selected [] = .ok found →
    (found.length : Int) ≤ maxSigned → ∃ places, p.places? found.length = some places ∧
      (∀ i ∈ places, i < found.length) ∧ selected [t] = .ok (pick found places)
  fault : ∀ {t p}, t.positional? = some p → ∀ {e}, selected [] = .error e →
    selected [t] = .error e
  cut : ∀ {n lt eq gt}, lt.positional? = some (.lt n) → eq.positional? = some (.eq n) →
    gt.positional? = some (.gt n) →
    (do return (← selected [lt]) ++ (← selected [eq]) ++ (← selected [gt])) = selected []
  nth : ∀ {n nth eq}, nth.positional? = some (.nth n) → eq.positional? = some (.eq n) →
    selected [nth] = selected [eq]
  first : ∀ {first eq}, first.positional? = some .first → eq.positional? = some (.eq 0) →
    selected [first] = selected [eq]
  last : ∀ {last eq}, last.positional? = some .last → eq.positional? = some (.eq (-1)) →
    selected [last] = selected [eq]
  even : ∀ {even}, even.positional? = some .even → selected [even] = (selected []).map
    fun found => (found.zipIdx.filter fun entry => entry.2 % 2 = 0).map (·.1)
  odd : ∀ {odd}, odd.positional? = some .odd → selected [odd] = (selected []).map
    fun found => (found.zipIdx.filter fun entry => entry.2 % 2 = 1).map (·.1)

lemma SplitByPlace.of_choose {selected : List Token → Except SelectorError (List NodeId)}
    (h : ∀ {t p}, t.positional? = some p → selected [t] = (selected []).map p.choose) :
    SplitByPlace selected where
  places := fun {_ _} ht {_} hfound hlength => by
    obtain ⟨places, hplaces, hwithin, hpick⟩ :=
      Positional.exists_places (Positional.inRange_of_positional? ht) hlength
    refine ⟨places, hplaces, hwithin, ?_⟩
    rw [h ht, hfound, hpick]
    rfl
  fault := fun {_ _} ht {_} hfault => by
    rw [h ht, hfault]
    rfl
  cut {n _ _ _} hlt heq hgt := by
    rw [h hlt, h heq, h hgt]
    cases selected [] with
    | error fault => rfl
    | ok found => exact congrArg Except.ok (takeBefore_memberAt_dropThrough n found)
  nth hnth heq := by
    rw [h hnth, h heq]
    rfl
  first hfirst heq := by
    rw [h hfirst, h heq]
    exact congrArg (Except.map · _) (funext fun found => (memberAt_zero found).symm)
  last hlast heq := by
    rw [h hlast, h heq]
    exact congrArg (Except.map · _) (funext fun found => (memberAt_neg_one found).symm)
  even heven := by
    rw [h heven]
    exact congrArg (Except.map · _) (funext fun found => evenPlaces_eq_zipIdx found 0)
  odd hodd := by
    rw [h hodd]
    refine congrArg (Except.map · _) (funext fun found => ?_)
    cases found with
    | nil => rfl
    | cons n rest => exact evenPlaces_eq_zipIdx rest 1

lemma Engine.splitByPlace_selectClause [PatternLibrary] {e : Engine}
    (hfast : e.settings.execution.fastPath = false) (depth : Nat) (h : Host) (c : Clause)
    (context : NodeId) :
    SplitByPlace fun more => (selectClause depth h (c ++ more) context e).1 := by
  refine .of_choose fun {t p} ht => ?_
  have hsimple : t.combinator? = none := by
    unfold Token.positional? at ht
    unfold Token.combinator?
    split at ht <;> simp_all
  rw [List.append_nil]
  exact selectClause_append hfast p.choose_nil (Positional.simple_positional ht) hsimple c context

namespace World

section

variable [PatternLibrary]

variable {settings : Settings} {e : Engine}

/-- Without the fast path a clause selects what it finds among its candidates. -/
theorem selectClause_eq_among (hnew : Engine.new settings = .ok e)
    (hfast : settings.execution.fastPath = false) {p : HookedPage} {events : List Event}
    (hp : p ∈ ((start e).after events).pages) {c : Clause} {depth : Nat}
    (hc : ∀ t ∈ c, t.Within depth) (context : NodeId)
    (hlt : (Engine.selectClause depth p.host c context
      ((start e).after events).engine).2.caches.named < UInt32.size) :
    (Engine.selectClause depth p.host c context ((start e).after events).engine).1 =
      c.among (p.host.scope (some context)) (p.document.candidates context c.leadsWithSibling) := by
  obtain ⟨A, N, hsound⟩ :=
    sound_after hnew events (fun _ => Engine.selectClause_adds c context) hlt
  obtain ⟨hforest, hknown⟩ := hsound.host hp
  have hselected := Engine.selectList_eq hsound.engine hfast hforest p.findsElements_host hknown
    (by simpa using hc) context hlt
  have hled : SelectorList.leadsWithSibling ⟨c.text, [c]⟩ = c.leadsWithSibling := by
    simp [SelectorList.leadsWithSibling]
  rw [Engine.selectClause, hselected, Plain.map_result_singleton, hled, p.document_host]

/-- A text that is read as one clause selects what the clause finds among its candidates. -/
theorem select_eq_among (hnew : Engine.new settings = .ok e)
    (hfast : settings.execution.fastPath = false) {p : HookedPage} {events : List Event}
    (hp : p ∈ ((start e).after events).pages)
    (hnative : (settings.execution.nativeSelect && p.features.nativeSelect) = false)
    {text source : String} {c : Clause} (hparse : SelectorList.parse text = .ok ⟨source, [c]⟩)
    (context : NodeId)
    (hlt : (Engine.select p.host text context
      ((start e).after events).engine).2.caches.named < UInt32.size) :
    (Engine.select p.host text context ((start e).after events).engine).1 =
      if p.document.isQueryRoot context = true then
        c.among (p.host.scope (some context)) (p.document.candidates context c.leadsWithSibling)
      else .ok [] := by
  obtain ⟨A, N, hsound⟩ := sound_after hnew events (fun _ => Engine.select_adds _ _ _) hlt
  have hled : SelectorList.leadsWithSibling ⟨source, [c]⟩ = c.leadsWithSibling := by
    simp [SelectorList.leadsWithSibling]
  have hshortcut : p.host.shortcut settings.execution text context = none := by
    have hnative' : (settings.execution.nativeSelect && p.host.features.nativeSelect) = false := by
      rwa [p.features_host]
    rw [Host.shortcut, hfast, hnative']
    rfl
  rw [hsound.select_eq hp text context hlt, Host.select, hshortcut, p.document_host,
    Plain.plain_eq Registry.standard_steady, hparse]
  split
  · rename_i hroot
    rw [← @Plain.map_result_singleton _ source, Document.candidates, if_pos hroot]
    change (Plain.selectorList .standard Registry.standard.plain ⟨source, [c]⟩ >>= fun made =>
      p.host.answer .standard settings.execution made context) = _
    cases hmade : Plain.selectorList .standard Registry.standard.plain ⟨source, [c]⟩ with
    | error fault => rfl
    | ok made =>
      have hlist := Engine.list_of_selectorList hmade
      change p.host.answer .standard settings.execution made context = _
      rw [Host.answer, Host.seedPlan, hfast, Host.scan, Compiled.searchRoot,
        Compiled.leadsWithSibling, hlist, hled, p.document_host]
      rfl
  · rfl

/-- Without the fast path, what a clause selects is split by the positional pseudo-classes at its end:
in every state of the engine, and for every index, of which none is left out. It is the same
whenever it is asked for, and a text that is read as the clause selects it too. -/
theorem selection_splitByPlace (hnew : Engine.new settings = .ok e)
    (hfast : settings.execution.fastPath = false) (c : Clause) (depth : Nat) (context : NodeId) :
    (∀ engine : Engine, engine.settings = settings → ∀ h : Host,
      SplitByPlace fun more => (Engine.selectClause depth h (c ++ more) context engine).1) ∧
    (∀ positional : Positional, positional.InRange →
      ∃ t : Token, t.positional? = some positional) ∧
    ∀ {p : HookedPage} {events : List Event}, p ∈ ((start e).after events).pages →
      ∀ {more}, (∀ t ∈ c ++ more, t.Within depth) →
      let engine := ((start e).after events).engine
      (Engine.selectClause depth p.host (c ++ more) context engine).2.caches.named < UInt32.size →
      (∀ {events'}, p ∈ ((start e).after events').pages →
        let engine' := ((start e).after events').engine
        (Engine.selectClause depth p.host (c ++ more) context engine').2.caches.named <
          UInt32.size →
        (Engine.selectClause depth p.host (c ++ more) context engine').1 =
          (Engine.selectClause depth p.host (c ++ more) context engine).1) ∧
      ∀ {text source}, SelectorList.parse text = .ok ⟨source, [c ++ more]⟩ →
        (settings.execution.nativeSelect && p.features.nativeSelect) = false →
        (Engine.select p.host text context engine).2.caches.named < UInt32.size →
        (Engine.select p.host text context engine).1 =
          if p.document.isQueryRoot context = true then
            (Engine.selectClause depth p.host (c ++ more) context engine).1
          else .ok [] := by
  refine ⟨fun _ hsettings h =>
      Engine.splitByPlace_selectClause (hsettings ▸ hfast) depth h c context,
    fun _ => Positional.exists_token, fun {p events} hp {more} hwithin => ?_⟩
  intro engine hlt
  have hamong := selectClause_eq_among hnew hfast hp hwithin context hlt
  refine ⟨fun {events'} hp' => ?_, fun {text source} hparse hnative hlt' => ?_⟩
  · intro engine' hlt'
    rw [hamong]
    exact selectClause_eq_among hnew hfast hp' hwithin context hlt'
  · rw [hamong]
    exact select_eq_among hnew hfast hp hnative hparse context hlt'

end

section Sample

attribute [local instance] PatternLibrary.standard

def lastButOne : Token := ⟨":lt(-1)", .pseudo ⟨"lt", some "-1", false⟩⟩

def lastOne : Token := ⟨":eq(-1)", .pseudo ⟨"eq", some "-1", false⟩⟩

def afterLast : Token := ⟨":gt(-1)", .pseudo ⟨"gt", some "-1", false⟩⟩

theorem selection_splitByPlace_sample :
    Engine.new groupSettings = .ok (.fresh groupSettings) ∧
      groupSettings.execution.fastPath = false ∧ groupPage ∈ groupWorld.pages ∧
      groupWorld.engine.settings = groupSettings ∧
      lastButOne.positional? = some (.lt (-1)) ∧ lastOne.positional? = some (.eq (-1)) ∧
      afterLast.positional? = some (.gt (-1)) ∧
      (Engine.selectClause 8 groupPage.host itemClause 0 groupWorld.engine).1.toOption =
        some [2, 3] ∧
      (Engine.selectClause 8 groupPage.host (itemClause ++ [lastButOne]) 0
        groupWorld.engine).1.toOption = some [2] ∧
      (do return (← (Engine.selectClause 8 groupPage.host (itemClause ++ [lastButOne]) 0
          groupWorld.engine).1) ++
        (← (Engine.selectClause 8 groupPage.host (itemClause ++ [lastOne]) 0
          groupWorld.engine).1) ++
        (← (Engine.selectClause 8 groupPage.host (itemClause ++ [afterLast]) 0
          groupWorld.engine).1)) =
        (Engine.selectClause 8 groupPage.host itemClause 0 groupWorld.engine).1 := by
  have hnew : Engine.new groupSettings = .ok (.fresh groupSettings) := rfl
  have hsettings : groupWorld.engine.settings = groupSettings := by with_unfolding_all rfl
  obtain ⟨hlt, heq, hgt, hall, hbefore⟩ : lastButOne.positional? = some (.lt (-1)) ∧
      lastOne.positional? = some (.eq (-1)) ∧ afterLast.positional? = some (.gt (-1)) ∧
      (Engine.selectClause 8 groupPage.host itemClause 0 groupWorld.engine).1.toOption =
        some [2, 3] ∧
      (Engine.selectClause 8 groupPage.host (itemClause ++ [lastButOne]) 0
        groupWorld.engine).1.toOption = some [2] := by
    decide +kernel
  obtain ⟨hsplit, -, -⟩ := selection_splitByPlace hnew rfl itemClause 8 0
  have hcut := (hsplit groupWorld.engine hsettings groupPage.host).cut hlt heq hgt
  exact ⟨hnew, rfl, List.get_mem _ _, hsettings, hlt, heq, hgt, hall, hbefore,
    hcut⟩

end Sample

end World

end TreeQuery
