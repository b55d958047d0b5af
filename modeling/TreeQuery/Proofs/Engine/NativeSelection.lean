import TreeQuery.Proofs.Engine.CandidateOrder
import TreeQuery.Proofs.Engine.Containment

/-!
# Native selection

A page may answer queries by itself. Where its answer names the nodes that the engine would select,
in any order and however often, nobody can tell who answered; where it fails, the engine goes on as
if the page had not been asked.
-/

namespace TreeQuery

namespace Engine

/-- The engine with native selection enabled or disabled. -/
def withNativeSelect (e : Engine) (enable : Bool) : Engine :=
  { e with settings := e.settings.withNativeSelect enable }

/-- Whether a host, where it answers a query, names the nodes that an engine selects without native
selection, in any order and however often. -/
def Confirms [PatternLibrary] (e : Engine) (h : Host) (query : String) (context : NodeId) : Prop :=
  ∀ found, h.selectNative context query = .ok found →
    ∃ nodes, (select h query context (e.withNativeSelect false)).1 = .ok nodes ∧
      ∀ n, n ∈ found ↔ n ∈ nodes

/-- Whether two engines differ at most in their counts and in whether native selection is
enabled. -/
structure Twins (e e' : Engine) : Prop where
  settings : e.settings.withNativeSelect false = e'.settings.withNativeSelect false
  registry : e.registry = e'.registry
  caches : e.caches = e'.caches
  memo : e.memo = e'.memo
  adapter : e.adapter = e'.adapter

variable {α β : Type} {e e' : Engine}

lemma Twins.refl (e : Engine) : Twins e e := ⟨rfl, rfl, rfl, rfl, rfl⟩

lemma Twins.symm (h : Twins e e') : Twins e' e :=
  ⟨h.settings.symm, h.registry.symm, h.caches.symm, h.memo.symm, h.adapter.symm⟩

lemma Twins.trans {e'' : Engine} (h : Twins e e') (h' : Twins e' e'') : Twins e e'' :=
  ⟨h.settings.trans h'.settings, h.registry.trans h'.registry, h.caches.trans h'.caches,
    h.memo.trans h'.memo, h.adapter.trans h'.adapter⟩

lemma twins_withNativeSelect (e : Engine) (enable : Bool) : Twins e (e.withNativeSelect enable) :=
  ⟨rfl, rfl, rfl, rfl, rfl⟩

lemma Twins.fastPath (h : Twins e e') :
    e.settings.execution.fastPath = e'.settings.execution.fastPath := by
  have heq := congrArg (fun s : Settings => s.execution.fastPath) h.settings
  exact heq

lemma Twins.seedNarrowing (h : Twins e e') :
    e.settings.execution.seedNarrowing = e'.settings.execution.seedNarrowing := by
  have heq := congrArg (fun s : Settings => s.execution.seedNarrowing) h.settings
  exact heq

/-- Whether a computation comes to the same outcome in twins and leaves twins behind. -/
def Heedless (action : Action α) : Prop :=
  ∀ e e' : Engine, Twins e e' →
    (action e).1 = (action e').1 ∧ Twins (action e).2 (action e').2

namespace Heedless

lemma pure (a : α) : Heedless (Pure.pure a) := fun _ _ h => ⟨rfl, h⟩

lemma modify {f : Engine → Engine} (hf : ∀ e e', Twins e e' → Twins (f e) (f e')) :
    Heedless (modify f : Action Unit) := fun e e' h => ⟨rfl, hf e e' h⟩

lemma bind {action : Action α} {g : α → Action β} (haction : Heedless action)
    (hg : ∀ a, Heedless (g a)) : Heedless (action >>= g) := by
  intro e e' h
  obtain ⟨hout, htwins⟩ := haction e e' h
  rw [Fallible.bind_apply, Fallible.bind_apply]
  rcases hone : action e with ⟨x, s⟩
  rcases htwo : action e' with ⟨x', s'⟩
  rw [hone, htwo] at hout htwins
  obtain rfl : x = x' := hout
  cases x with
  | error fault => exact ⟨rfl, htwins⟩
  | ok a => exact hg a s s' htwins

/-- A computation may look at what twins have in common. -/
theorem get {g : Engine → Action α} (hsame : ∀ e e', Twins e e' → g e = g e')
    (hg : ∀ e, Heedless (g e)) : Heedless ((MonadState.get : Action Engine) >>= g) := by
  intro e e' h
  rw [get_bind, get_bind, hsame e e' h]
  exact hg e' e e' h

end Heedless

lemma count_heedless (change : QueryStats → QueryStats) : Heedless (count change) :=
  .modify fun _ _ h => ⟨h.settings, h.registry, h.caches, h.memo, h.adapter⟩

lemma liftCompile_heedless (action : Compile α) : Heedless (liftCompile action) := by
  intro e e' h
  rw [liftCompile, liftCompile, h.caches]
  exact ⟨rfl, h.settings, h.registry, rfl, h.memo, h.adapter⟩

lemma liftRun_heedless (action : Run α) : Heedless (liftRun action) := by
  intro e e' h
  rw [liftRun, liftRun, h.memo]
  exact ⟨rfl, h.settings, h.registry, h.caches, rfl, h.adapter⟩

lemma adapt_heedless (h : Host) (root : NodeId) : Heedless (adapt h root) := by
  have hrenew : ∀ fresh, Heedless (adapt.renew fresh) := by
    refine fun fresh => Heedless.bind (.modify fun e e' htwins => ?_) fun _ => .pure fresh
    exact ⟨htwins.settings, htwins.registry, htwins.caches, congrArg Memo.reset htwins.memo, rfl⟩
  refine .get (fun e e' htwins => by rw [htwins.adapter]) fun e => ?_
  split
  · split
    · exact .pure _
    · exact hrenew _
  · exact hrenew _

lemma beginQuery_heedless (h : Host) (n : NodeId) : Heedless (beginQuery h n) := by
  refine (adapt_heedless h _).bind fun adapter =>
    Heedless.bind (.modify fun e e' htwins => ?_) fun _ => .pure adapter
  exact ⟨htwins.settings, htwins.registry, htwins.caches, congrArg Memo.beginQuery htwins.memo,
    htwins.adapter⟩

/-- What an index knows about a query, if the settings let the engine ask it. -/
def indexed (e : Engine) (h : Host) (query : String) (context : NodeId) (adapter : Adapter) :
    Option (List NodeId) :=
  if e.settings.execution.fastPath then h.quick adapter.features query context else none

/-- A shortcut leaves a twin behind and gives what an index knows, unless the host answers. -/
theorem shortcut_eq (h : Host) (query : String) (context : NodeId) (adapter : Adapter)
    (e : Engine) :
    ∃ e', Twins e e' ∧
      (shortcut h query context adapter e = (.ok (e.indexed h query context adapter), e') ∨
        e.settings.execution.nativeSelect = true ∧ e.indexed h query context adapter = none ∧
          ∃ found, h.selectNative context query = .ok found ∧
            shortcut h query context adapter e = (.ok (some (h.uniqueSort found)), e')) := by
  have hcounted : ∀ stats, Twins e { e with stats } := fun _ => ⟨rfl, rfl, rfl, rfl, rfl⟩
  rw [shortcut, get_bind, ← indexed]
  cases e.indexed h query context adapter with
  | some found => exact ⟨_, hcounted _, .inl rfl⟩
  | none =>
    dsimp only
    split
    · rename_i henabled
      unfold Host.native
      cases h.selectNative context query with
      | ok found =>
        exact ⟨_, hcounted _,
          .inr ⟨(Bool.and_eq_true_iff.mp henabled).1, rfl, found, rfl, rfl⟩⟩
      | error fault => exact ⟨_, hcounted _, .inl rfl⟩
    · exact ⟨e, .refl e, .inl rfl⟩

/-- Nodes in document order are what any enumeration of them is sorted to. -/
theorem uniqueSort_eq_of_listsBelow {h : Host} (hh : h.Searches) {scope : NodeId}
    {found nodes : List NodeId} (hnodes : h.document.ListsBelow scope nodes)
    (hmem : ∀ n, n ∈ found ↔ n ∈ nodes) : h.uniqueSort found = nodes := by
  have hroot : ∀ n ∈ nodes, h.document.rootOf n = h.document.rootOf scope := fun n hn =>
    hh.forest.rootOf_of_transGen (hnodes.below n hn)
  have hlisting : nodes.Pairwise (h.document.ListedBefore (h.roots found)) :=
    hnodes.ordered.imp_of_mem fun ha hb hab =>
      .inr ⟨(hroot _ ha).trans (hroot _ hb).symm, hab⟩
  rw [Host.uniqueSort_eq_filter_listing hh.forest hlisting (fun n hn => (hmem n).mp hn)
    hh.compares]
  exact List.filter_eq_self.mpr fun n hn => List.contains_iff_mem.mpr ((hmem n).mpr hn)

variable [PatternLibrary]

lemma compile_heedless (query : String) : Heedless (compile query) :=
  .get (fun e e' h => by rw [h.registry]) fun _ => liftCompile_heedless _

lemma answer_heedless (h : Host) (selector : Compiled) (context : NodeId) (adapter : Adapter) :
    Heedless (answer h selector context adapter) := by
  refine .get (fun e e' htwins => ?_) fun e => ?_
  · dsimp only
    rw [htwins.fastPath, htwins.seedNarrowing]
  · dsimp only
    split
    · refine (count_heedless _).bind fun _ => ?_
      split
      · exact .pure _
      · exact (compile_heedless _).bind fun _ => liftRun_heedless _
    · exact (count_heedless _).bind fun _ => liftRun_heedless _

/-- What is left of a query to which neither an index nor the host knows the answer. -/
def searchTree (h : Host) (query : String) (context : NodeId) (adapter : Adapter) :
    Action (List NodeId) := do
  let selector ← compile query
  answer h selector.value context adapter

lemma searchTree_heedless (h : Host) (query : String) (context : NodeId) (adapter : Adapter) :
    Heedless (searchTree h query context adapter) :=
  (compile_heedless query).bind fun _ => answer_heedless h _ context adapter

lemma searchTree_keeps (h : Host) (query : String) (context : NodeId) (adapter : Adapter) :
    Fallible.Keeps Tidy (searchTree h query context adapter) fun found =>
      h.Searches → ∃ scope, h.document.ListsBelow scope found :=
  (compile_keeps query).bind fun _ hc =>
    (answer_keeps h hc.2 context adapter).mono fun _ hfound hh => ⟨_, hfound hh⟩

/-- What is done for a query once it has begun. -/
def resolve (h : Host) (query : String) (context : NodeId) (adapter : Adapter) :
    Action (List NodeId) := do
  match ← shortcut h query context adapter with
  | some found => return found
  | none => searchTree h query context adapter

/-- Without native selection a query that has begun gives nodes in document order. -/
theorem resolve_lists {h : Host} (hh : h.Searches) (htidy : e.Tidy)
    (hoff : e.settings.execution.nativeSelect = false) {query : String} {context : NodeId}
    {adapter : Adapter} {nodes : List NodeId}
    (hnodes : (resolve h query context adapter e).1 = .ok nodes) :
    ∃ scope, h.document.ListsBelow scope nodes := by
  have htidied := (shortcut_keeps h query context adapter e htidy).1
  obtain ⟨s, -, hout | ⟨hon, -⟩⟩ := shortcut_eq h query context adapter e
  · rw [hout] at htidied
    rw [resolve, Fallible.bind_apply, hout] at hnodes
    cases hindexed : e.indexed h query context adapter with
    | some found =>
      rw [hindexed] at hnodes
      obtain rfl := Except.ok.inj hnodes
      rw [indexed] at hindexed
      split at hindexed
      · obtain ⟨seed, -, rfl⟩ := Option.map_eq_some_iff.mp hindexed
        exact ⟨context, hh.forest.listsBelow (hh.fetch_sublist seed context)⟩
      · cases hindexed
    | none =>
      rw [hindexed] at hnodes
      exact (searchTree_keeps h query context adapter s htidied).2 nodes hnodes hh
  · rw [hoff] at hon
    cases hon

/-- Two engines, one of them without native selection, come to the same outcome of a query that has
begun. -/
theorem resolve_twins {h : Host} (hh : h.Searches) (htwins : Twins e e') (htidy : e'.Tidy)
    (hoff : e'.settings.execution.nativeSelect = false) {query : String} {context : NodeId}
    (adapter : Adapter)
    (hconfirms : ∀ found, h.selectNative context query = .ok found →
      ∃ nodes, (resolve h query context adapter e').1 = .ok nodes ∧ ∀ n, n ∈ found ↔ n ∈ nodes) :
    (resolve h query context adapter e).1 = (resolve h query context adapter e').1 ∧
      ∀ fault, h.selectNative context query = .error fault →
        Twins (resolve h query context adapter e).2 (resolve h query context adapter e').2 := by
  have hindexed : e.indexed h query context adapter = e'.indexed h query context adapter := by
    rw [indexed, indexed, htwins.fastPath]
  obtain ⟨s, hs, hout | ⟨-, -, found, hfound, hout⟩⟩ := shortcut_eq h query context adapter e
  · obtain ⟨s', hs', hout' | ⟨hon, -⟩⟩ := shortcut_eq h query context adapter e'
    · have hboth : Twins s s' := hs.symm.trans (htwins.trans hs')
      rw [resolve, Fallible.bind_apply, Fallible.bind_apply, hout, hout', hindexed]
      cases e'.indexed h query context adapter with
      | some nodes => exact ⟨rfl, fun _ _ => hboth⟩
      | none =>
        obtain ⟨hsame, hleft⟩ := searchTree_heedless h query context adapter s s' hboth
        exact ⟨hsame, fun _ _ => hleft⟩
    · rw [hoff] at hon
      cases hon
  · -- the host answers the one engine, the other one searches
    obtain ⟨nodes, hnodes, hmem⟩ := hconfirms found hfound
    obtain ⟨scope, hlists⟩ := resolve_lists hh htidy hoff hnodes
    refine ⟨?_, fun fault hfault => ?_⟩
    · rw [hnodes, resolve, Fallible.bind_apply, hout]
      exact congrArg Except.ok (uniqueSort_eq_of_listsBelow hh hlists hmem)
    · rw [hfound] at hfault
      cases hfault

/-- A query begins in twins in the same way. -/
theorem exists_resolve {h : Host} {context : NodeId} (hroot : h.document.isQueryRoot context = true)
    (query : String) (htwins : Twins e e') (htidy : e'.Tidy) :
    ∃ adapter s s', select h query context e = resolve h query context adapter s ∧
      select h query context e' = resolve h query context adapter s' ∧
      Twins s s' ∧ s'.Tidy ∧ s'.settings = e'.settings := by
  let counted (e : Engine) : Engine :=
    { e with stats := { e.stats with queries := e.stats.queries + 1 } }
  have hselect : ∀ e, select h query context e =
      (beginQuery h context >>= resolve h query context) (counted e) := by
    intro e
    rw [select, if_pos hroot]
    rfl
  have hcounted : Twins (counted e) (counted e') :=
    ⟨htwins.settings, htwins.registry, htwins.caches, htwins.memo, htwins.adapter⟩
  obtain ⟨hadapter, hbegun⟩ := beginQuery_heedless h context _ _ hcounted
  have hsettings := settings_beginQuery h context (counted e')
  have htidied := (beginQuery_keeps h context (counted e') ⟨htidy.registry, htidy.caches⟩).1
  obtain ⟨adapter, s, hone⟩ := exists_beginQuery h context (counted e)
  obtain ⟨adapter', s', htwo⟩ := exists_beginQuery h context (counted e')
  rw [hone, htwo] at hadapter hbegun
  rw [htwo] at hsettings htidied
  obtain rfl := Except.ok.inj hadapter
  refine ⟨adapter, s, s', ?_, ?_, hbegun, htidied, hsettings⟩
  · rw [hselect, Fallible.bind_apply, hone]
  · rw [hselect, Fallible.bind_apply, htwo]

lemma select_lists {h : Host} (hh : h.Searches) (htidy : e.Tidy)
    (hoff : e.settings.execution.nativeSelect = false) {query : String} {context : NodeId}
    {nodes : List NodeId} (hnodes : (select h query context e).1 = .ok nodes) :
    ∃ scope, h.document.ListsBelow scope nodes := by
  by_cases hroot : h.document.isQueryRoot context = true
  · obtain ⟨adapter, -, s, -, hselect, -, htidied, hsettings⟩ :=
      exists_resolve hroot query (.refl e) htidy
    rw [hselect] at hnodes
    exact resolve_lists hh htidied (hsettings ▸ hoff) hnodes
  · rw [select, if_neg hroot] at hnodes
    obtain rfl := Except.ok.inj hnodes
    exact ⟨context, Document.listsBelow_nil _ _⟩

lemma select_twins {h : Host} (hh : h.Searches) (htwins : Twins e e') (htidy : e'.Tidy)
    (hoff : e'.settings.execution.nativeSelect = false) {query : String} {context : NodeId}
    (hconfirms : ∀ found, h.selectNative context query = .ok found →
      ∃ nodes, (select h query context e').1 = .ok nodes ∧ ∀ n, n ∈ found ↔ n ∈ nodes) :
    (select h query context e).1 = (select h query context e').1 ∧
      ∀ fault, h.selectNative context query = .error fault →
        Twins (select h query context e).2 (select h query context e').2 := by
  by_cases hroot : h.document.isQueryRoot context = true
  · obtain ⟨adapter, s, s', hselect, hselect', hboth, htidied, hsettings⟩ :=
      exists_resolve hroot query htwins htidy
    rw [hselect'] at hconfirms
    rw [hselect, hselect']
    exact resolve_twins hh hboth htidied (hsettings ▸ hoff) adapter hconfirms
  · rw [select, if_neg hroot]
    exact ⟨rfl, fun _ _ => htwins⟩

end Engine

/-- What a query selects is the same with native selection, if the host answers as it is answered
without. -/
theorem Host.select_withNativeSelect [PatternLibrary] {h : Host} {r : Registry} {settings : Settings}
    {query : String} {context : NodeId} (hnative : ∀ found, h.native query context = some found →
      h.select r (settings.withNativeSelect false).execution query context = .ok found) :
    h.select r settings.execution query context =
      h.select r (settings.withNativeSelect false).execution query context := by
  unfold Host.select at hnative ⊢
  split
  · rename_i hroot
    rw [if_pos hroot] at hnative
    have hquick : h.shortcut (settings.withNativeSelect false).execution query context =
        if settings.execution.fastPath then h.quick h.features query context else none :=
      Option.or_none
    rw [hquick] at hnative ⊢
    rw [Host.shortcut]
    cases hindexed :
      (if settings.execution.fastPath then h.quick h.features query context else none) with
    | some found => rfl
    | none =>
      rw [hindexed] at hnative
      rw [Option.none_or]
      split
      · rename_i found hfound
        split at hfound
        · exact (hnative found hfound).symm
        · cases hfound
      · rfl
  · rfl

namespace World

lemma new_withNativeSelect {settings : Settings} {e : Engine}
    (hnew : Engine.new settings = .ok e) (enable : Bool) :
    Engine.new (settings.withNativeSelect enable) = .ok (e.withNativeSelect enable) := by
  unfold Engine.new Settings.checked at *
  have hfault : (settings.withNativeSelect enable).fault? = settings.fault? := rfl
  rw [hfault]
  cases h : settings.fault? with
  | some fault =>
    rw [h] at hnew
    exact nomatch hnew
  | none =>
    rw [h] at hnew
    obtain rfl := Except.ok.inj hnew
    rfl

section

variable [PatternLibrary]

/-- Whether the hooks of the pages, where they answer queries that are asked, name what is selected
without them. -/
def Confirms (w : World) : List Event → Prop
  | [] => True
  | event :: rest =>
    (∀ page query context p, event = .ask page (.select query context) →
      w.pages[page]? = some p → w.engine.Confirms p.host query context) ∧
      (w.act event).1.Confirms rest

variable {A A' : Adverts} {N N' : Naming} {settings : Settings} {w w' : World} {e : Engine}

lemma ask_select_snd (h : Host) (query : String) (context : NodeId) (e : Engine) :
    ((Query.select query context).ask h e).2 = (Engine.select h query context e).2 := by
  rw [Query.ask, Fallible.bind_apply]
  rcases Engine.select h query context e with ⟨_ | _, _⟩ <;> rfl

/-- A reply that a hook confirms is the reply with native selection. -/
theorem Sound.expected_confirmed (hw : w.Sound A N (settings.withNativeSelect false))
    (htidy : w.Tidy) {event : Event}
    (hconfirms : ∀ page query context p, event = .ask page (.select query context) →
      w.pages[page]? = some p → w.engine.Confirms p.host query context)
    (hlt : (w.act event).1.named < UInt32.size) :
    w.expected settings.execution event =
      w.expected (settings.withNativeSelect false).execution event := by
  cases event with
  | ask page query =>
    rw [expected, expected]
    cases hp : w.pages[page]? with
    | none => rfl
    | some p =>
      cases query with
      | select query context =>
        have hmem := List.mem_of_getElem? hp
        have hsettings := hw.engine.settings
        have hsame : w.engine.withNativeSelect false = w.engine := by
          rw [Engine.withNativeSelect, hsettings]
          exact hsettings ▸ rfl
        have hoff : w.engine.settings.execution.nativeSelect = false := by
          rw [hsettings]
          rfl
        have hnamed : (Engine.select p.host query context w.engine).2.caches.named <
            UInt32.size := by
          rwa [act_ask hp, named, ask_select_snd] at hlt
        have hselect := hw.select_eq hmem query context hnamed
        refine congrArg some (congrArg (Except.map Answer.nodes)
          (Host.select_withNativeSelect fun found hfound => ?_))
        -- what the host answers is sorted to what is selected without it
        have hsearches := HookedPage.searches_host (hw.forests p hmem)
        unfold Host.native at hfound
        split at hfound
        · rename_i raw hraw
          obtain ⟨nodes, hnodes, hiff⟩ := hconfirms page query context p rfl hp raw hraw
          rw [hsame] at hnodes
          obtain ⟨scope, hlists⟩ := Engine.select_lists hsearches htidy.engine hoff hnodes
          rw [← hselect, hnodes, ← Option.some.inj hfound,
            Engine.uniqueSort_eq_of_listsBelow hsearches hlists hiff]
        · cases hfound
      | filter text candidates => rfl
      | test text n => rfl
  | _ => rfl

/-- Whatever has happened to an engine, a query on a page whose hook either fails or names what is
selected without it has one outcome with and without native selection; where the hook fails, the
engine is left as if it had not been asked, but for its counts. If the hooks answer so throughout a
run, all replies are those of an engine without native selection. -/
theorem select_of_nativeSelect (hnew : Engine.new settings = .ok e) (events : List Event) :
    (∀ {p : HookedPage} {query : String} {context : NodeId}, p.document.IsForest →
      let engine := ((start e).after events).engine
      let off := engine.withNativeSelect false
      engine.Confirms p.host query context →
        (Engine.select p.host query context engine).1 =
            (Engine.select p.host query context off).1 ∧
          ∀ fault, p.host.selectNative context query = .error fault →
            (Engine.select p.host query context engine).2.Twins
              (Engine.select p.host query context off).2) ∧
    ((start (e.withNativeSelect false)).Confirms events →
      ((start e).after events).named < UInt32.size →
      ((start (e.withNativeSelect false)).after events).named < UInt32.size →
      (start e).replies events = (start (e.withNativeSelect false)).replies events) := by
  have hnew' := new_withNativeSelect hnew false
  refine ⟨fun {p query context} hforest hconfirms => ?_, fun hconfirms hlt hlt' => ?_⟩
  · have htidy := ((tidy_start hnew).after events).engine
    exact Engine.select_twins (HookedPage.searches_host hforest)
      (Engine.twins_withNativeSelect _ false) ⟨htidy.registry, htidy.caches⟩ rfl hconfirms
  · have halike : (start (e.withNativeSelect false)).Alike (start e) := ⟨rfl, rfl, rfl⟩
    refine halike.replies_of_invariant (I := fun w events => w.Tidy ∧ w.Confirms events)
      (fun hI => ⟨hI.1.act _, hI.2.2⟩) (fun hI hw => hw.expected_confirmed hI.1 hI.2.1) events
      ⟨tidy_start hnew', hconfirms⟩ (sound_start (Engine.sound_new hnew' fun _ => none))
      (sound_start (Engine.sound_new hnew fun _ => none)) hlt' hlt

end

section Sample

attribute [local instance] PatternLibrary.standard

/-- A hook that knows one query, and lists the second item twice. -/
def echoHook : Hook := fun _ context query =>
  if query = "ul > li" ∧ context = 0 then .ok [3, 2, 3] else .error (.host "not ready")

def echoRun : List Event :=
  [.create false, .withFeatures 0 .none,
    .mutate 0 Document.sample.nodes Document.isForest_sample, .withHook 0 echoHook,
    .ask 0 (.select "ul > li" 0), .ask 0 (.select "li ~ li" 0), .ask 0 (.select "li:bogus" 0)]

def echoWorld : World := (start (.fresh .standard)).after echoRun

def echoPage : HookedPage :=
  { document := ⟨Document.sample.nodes, false⟩
    identity := 2
    features := { Features.none with nativeSelect := true }
    hook := some echoHook }

lemma isForest_echoPage : echoPage.document.IsForest := Document.isForest_sample false

lemma selectNative_echoPage : echoPage.host.selectNative 0 "ul > li" = .ok [3, 2, 3] := rfl

/-- The engine that is asked along with the sample engine, without native selection. -/
def quietStart : World := start ((Engine.fresh .standard).withNativeSelect false)

lemma confirms_echoPage {e : Engine}
    (hselect : (Engine.select echoPage.host "ul > li" 0 (e.withNativeSelect false)).1.toOption =
      some [2, 3]) : e.Confirms echoPage.host "ul > li" 0 := by
  intro found hfound
  rw [selectNative_echoPage] at hfound
  obtain rfl := Except.ok.inj hfound
  exact ⟨[2, 3], Fallible.eq_ok_of_toOption hselect, fun n => by simp +contextual [or_comm]⟩

lemma confirms_of_error {e : Engine} {h : Host} {query : String} {context : NodeId}
    {fault : SelectorError} (herror : h.selectNative context query = .error fault) :
    e.Confirms h query context := by
  intro found hfound
  rw [herror] at hfound
  exact nomatch hfound

lemma confirms_ask {w : World} {page context : Nat} {query : String} {p : HookedPage}
    (hp : w.pages[page]? = some p) (hconfirms : w.engine.Confirms p.host query context) :
    ∀ page' query' context' p', Event.ask page (.select query context) =
      .ask page' (.select query' context') → w.pages[page']? = some p' →
      w.engine.Confirms p'.host query' context' := by
  rintro _ _ _ p' ⟨⟩ hp'
  obtain rfl := Option.some.inj (hp.symm.trans hp')
  exact hconfirms

lemma confirms_echoRun : quietStart.Confirms echoRun := by
  rw [echoRun]
  refine ⟨nofun, nofun, nofun, nofun, ?_, ?_, ?_, trivial⟩
  · exact confirms_ask (p := echoPage) rfl (confirms_echoPage (by decide +kernel))
  · exact confirms_ask (p := echoPage) rfl (confirms_of_error rfl)
  · exact confirms_ask (p := echoPage) rfl (confirms_of_error rfl)

/-- The hook answers one query and fails at two others, one of which does not compile. -/
theorem select_of_nativeSelect_sample :
    Engine.new .standard = .ok (.fresh .standard) ∧ echoPage.document.IsForest ∧
      echoWorld.engine.Confirms echoPage.host "ul > li" 0 ∧
      (Engine.select echoPage.host "ul > li" 0 echoWorld.engine).1 = .ok [2, 3] ∧
      echoPage.host.selectNative 0 "li ~ li" = .error (.host "not ready") ∧
      (Engine.select echoPage.host "li ~ li" 0 echoWorld.engine).2.Twins
        (Engine.select echoPage.host "li ~ li" 0
          (echoWorld.engine.withNativeSelect false)).2 ∧
      quietStart.Confirms echoRun ∧ echoWorld.named < UInt32.size ∧
      (quietStart.after echoRun).named < UInt32.size ∧
      (start (.fresh .standard)).replies echoRun = quietStart.replies echoRun := by
  obtain ⟨hselect, hreplies⟩ := select_of_nativeSelect Engine.new_standard echoRun
  have hruns : (Engine.select echoPage.host "ul > li" 0
        (echoWorld.engine.withNativeSelect false)).1.toOption = some [2, 3] ∧
      echoWorld.named < UInt32.size ∧ (quietStart.after echoRun).named < UInt32.size := by
    decide +kernel
  obtain ⟨hoff, hlt, hlt'⟩ := hruns
  have hconfirms : echoWorld.engine.Confirms echoPage.host "ul > li" 0 := confirms_echoPage hoff
  have hon := (hselect isForest_echoPage hconfirms).1.trans (Fallible.eq_ok_of_toOption hoff)
  have herror : echoPage.host.selectNative 0 "li ~ li" = .error (.host "not ready") := rfl
  have htwins := (hselect isForest_echoPage (confirms_of_error herror)).2 _ herror
  exact ⟨Engine.new_standard, isForest_echoPage, hconfirms, hon, herror, htwins,
    confirms_echoRun, hlt, hlt', hreplies confirms_echoRun hlt hlt'⟩

end Sample

end World

end TreeQuery
