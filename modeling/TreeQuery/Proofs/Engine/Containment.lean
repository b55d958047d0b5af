import TreeQuery.Proofs.Compile.Unscoped
import TreeQuery.Proofs.Engine.Groups
import TreeQuery.Proofs.Engine.SpentNames

/-!
# One question for all queries

A selector without set matchers that no combinator leads asks one question of every element. What it
selects under a context are the elements below the context that pass, what it keeps of candidates
are those that pass, and it matches an element that passes: the context only says where to look.
-/

namespace TreeQuery

/-- Below a node stand those that stand below a node above it and are contained in the first one. -/
theorem Document.IsForest.descendantElements_eq_filter {d : Document} (hforest : d.IsForest)
    {context root : NodeId} (hbelow : Relation.ReflTransGen (Linked d.parent) context root) :
    d.descendantElements context = (d.descendantElements root).filter (d.contains context) := by
  have hasymm : ∀ a b, d.Precedes a b → d.Precedes b a → a = b := by
    intro a b hab hba
    have hlt := (hforest.comparePosition_of_precedes hab).1
    rw [(hforest.comparePosition_of_precedes hba).2] at hlt
    exact nomatch hlt
  have hordered := hforest.pairwise_descendantElements context
  have hfiltered := (hforest.pairwise_descendantElements root).filter (d.contains context)
  have hmem : ∀ n, n ∈ d.descendantElements context ↔
      n ∈ (d.descendantElements root).filter (d.contains context) := by
    intro n
    rw [List.mem_filter, hforest.mem_descendantElements, hforest.mem_descendantElements,
      hforest.contains_iff]
    constructor
    · intro ⟨hn, helem⟩
      exact ⟨⟨hn.trans_left hbelow, helem⟩, hn⟩
    · intro ⟨⟨_, helem⟩, hn⟩
      exact ⟨hn, helem⟩
  have hperm : (d.descendantElements context).Perm
      ((d.descendantElements root).filter (d.contains context)) :=
    (List.perm_ext_iff_of_nodup (hforest.nodup_descendantElements context)
      ((hforest.nodup_descendantElements root).filter _)).mpr hmem
  exact hperm.eq_of_pairwise (fun a b _ _ => hasymm a b) hordered hfiltered

namespace Compiled

/-- Whether a selector without set matchers accepts an element. -/
def accepts (c : Compiled) (s : Scope) (n : NodeId) : Bool :=
  c.elementTest.any fun t => t.holds (fun _ => false) s n

lemma result_eq_filter {c : Compiled} (honly : c.isElementOnly = true) (s : Scope)
    (pool : List NodeId) : c.result s pool = pool.filter (c.accepts s) := by
  cases c with
  | mk list test plans =>
    obtain rfl : plans = [] := List.isEmpty_iff.mp honly
    rw [result_of_no_plans]
    cases test with
    | none => exact (List.filter_eq_nil_iff.mpr fun _ _ => Bool.false_ne_true).symm
    | some t => rfl

lemma Unscoped.accepts_eq {c : Compiled} (hc : c.Unscoped) (h : Host) (context : Option NodeId) :
    c.accepts (h.scope context) = c.accepts (h.scope none) := by
  funext n
  unfold accepts
  cases ht : c.elementTest with
  | none => rfl
  | some t => exact hc t ht (fun _ => false) (h.scope none) context n

end Compiled

namespace Host

variable [PatternLibrary] {h : Host} {r : Registry} {query : String} {c : Compiled}

lemma filterCandidates_eq_filter (hc : r.plain query = .ok c) (honly : c.isElementOnly = true)
    (candidates : List NodeId) :
    h.filterCandidates r query candidates =
      .ok (candidates.filter fun n => h.document.isElement n && c.accepts (h.scope none) n) := by
  rw [filterCandidates, hc]
  refine congrArg Except.ok ?_
  rw [Compiled.result_eq_filter honly, List.filter_filter]
  apply List.filter_congr
  intro n _
  exact Bool.and_comm _ _

lemma matchesElement_eq_accepts (hc : r.plain query = .ok c) (honly : c.isElementOnly = true)
    (n : NodeId) :
    h.matchesElement r n query =
      .ok (h.document.isElement n && c.accepts (h.scope none) n) := by
  rw [matchesElement, hc]
  refine congrArg Except.ok ?_
  rw [Compiled.result_eq_filter honly]
  by_cases haccepts : c.accepts (h.scope none) n = true
  · simp [haccepts]
  · simp [haccepts]

/-- Without the fast path and the host's own answers, a selector is run on the elements below its
search root. -/
theorem select_eq_scan {x : ExecutionSettings} (hfast : x.fastPath = false)
    (hnative : (x.nativeSelect && h.features.nativeSelect) = false) (hc : r.plain query = .ok c)
    (context : NodeId) :
    h.select r x query context =
      .ok (if h.document.isQueryRoot context = true then h.scan c context else []) := by
  have hshortcut : h.shortcut x query context = none := by
    simp [shortcut, hfast, hnative]
  have hplan : h.seedPlan x c = none := by
    simp [seedPlan, hfast]
  have hanswer : h.answer r x c context = .ok (h.scan c context) := by
    rw [answer, hplan]
  unfold select
  split
  · rw [hshortcut, hc]
    exact hanswer
  · rfl

/-- Without the fast path and the host's own answers, an unscoped selector selects the elements
below the context that it accepts. -/
theorem select_eq_filter {x : ExecutionSettings} (hfast : x.fastPath = false)
    (hnative : (x.nativeSelect && h.features.nativeSelect) = false) (hc : r.plain query = .ok c)
    (honly : c.isElementOnly = true) (hunscoped : c.Unscoped)
    (hled : c.leadsWithSibling = false) (context : NodeId) :
    h.select r x query context = .ok ((if h.document.isQueryRoot context = true then
      h.document.descendantElements context else []).filter
        fun n => h.document.isElement n && c.accepts (h.scope none) n) := by
  rw [select_eq_scan hfast hnative hc context]
  split
  · rw [scan, Compiled.searchRoot, hled, Document.searchRoot, if_neg Bool.false_ne_true,
      Compiled.result_eq_filter honly, hunscoped.accepts_eq]
    refine congrArg Except.ok (List.filter_congr fun n hn => ?_)
    rw [Document.isElement_of_descendantElements hn, Bool.true_and]
  · rfl

end Host

namespace World

section

variable [PatternLibrary]

variable {A : Adverts} {N : Naming} {settings : Settings} {w : World} {e : Engine}

lemma Sound.select_eq (hw : w.Sound A N settings) {p : HookedPage} (hp : p ∈ w.pages)
    (query : String) (context : NodeId)
    (hlt : (Engine.select p.host query context w.engine).2.caches.named < UInt32.size) :
    (Engine.select p.host query context w.engine).1 =
      p.host.select .standard settings.execution query context := by
  obtain ⟨hforest, hknown⟩ := hw.host hp
  obtain ⟨_, _, _, hagree⟩ := Engine.select_follows Registry.standard_steady hw.engine hforest
    p.findsElements_host hknown query context hlt
  exact hagree.eq

lemma Sound.filterCandidates_eq (hw : w.Sound A N settings) {p : HookedPage} (hp : p ∈ w.pages)
    (query : String) (candidates : List NodeId)
    (hlt : (Engine.filterCandidates p.host query candidates w.engine).2.caches.named <
      UInt32.size) :
    (Engine.filterCandidates p.host query candidates w.engine).1 =
      p.host.filterCandidates .standard query candidates := by
  obtain ⟨hforest, hknown⟩ := hw.host hp
  obtain ⟨_, _, _, hagree⟩ := Engine.filterCandidates_follows Registry.standard_steady hw.engine
    hforest hknown query candidates hlt
  exact hagree.eq

lemma Sound.matchesElement_eq (hw : w.Sound A N settings) {p : HookedPage} (hp : p ∈ w.pages)
    (n : NodeId) (query : String)
    (hlt : (Engine.matchesElement p.host n query w.engine).2.caches.named < UInt32.size) :
    (Engine.matchesElement p.host n query w.engine).1 =
      p.host.matchesElement .standard n query := by
  obtain ⟨hforest, hknown⟩ := hw.host hp
  obtain ⟨_, _, _, hagree⟩ := Engine.matchesElement_follows Registry.standard_steady hw.engine
    hforest hknown n query hlt
  exact hagree.eq

/-- An engine that has given some number of names has come to a sound world with them. -/
theorem sound_after (hnew : Engine.new settings = .ok e) (events : List Event) {α : Type}
    {action : Engine.Action α}
    (hadds : ∀ A, (Engine.ledger A .standard settings).Adds action)
    (hlt : (action ((start e).after events).engine).2.caches.named < UInt32.size) :
    ∃ A N, ((start e).after events).Sound A N settings := by
  have hstart := sound_start (Engine.sound_new hnew fun _ => none)
  have hnamed : ((start e).after events).named < UInt32.size :=
    Nat.lt_of_le_of_lt (hadds (fun _ => none) _) hlt
  obtain ⟨A, N, -, hsound⟩ := hstart.after events hnamed
  exact ⟨A, N, hsound⟩

/-- A query without set matchers that no combinator leads asks one question of the elements of a
page, whatever the engine was asked before. Without the fast path and the host's own answers, what
is selected under a context are the elements below it that pass, and so what is selected under a
node above it and is contained in it. -/
theorem select_eq_contained (hnew : Engine.new settings = .ok e)
    (hfast : settings.execution.fastPath = false) {p : HookedPage}
    (hnative : (settings.execution.nativeSelect && p.features.nativeSelect) = false)
    {query : String} {c : Compiled} (hc : Registry.standard.plain query = .ok c)
    (honly : c.isElementOnly = true) (hunled : c.list.Unled) :
    ∃ accepts : NodeId → Bool, ∀ events, p ∈ ((start e).after events).pages →
      let engine := ((start e).after events).engine
      (∀ n, (Engine.matchesElement p.host n query engine).2.caches.named < UInt32.size →
        (Engine.matchesElement p.host n query engine).1 = .ok (accepts n)) ∧
      (∀ context, (Engine.select p.host query context engine).2.caches.named < UInt32.size →
        (Engine.select p.host query context engine).1 =
          .ok ((if p.document.isQueryRoot context = true then
            p.document.descendantElements context else []).filter accepts)) ∧
      (∀ context root, p.document.isQueryRoot context = true →
        p.document.isQueryRoot root = true →
        Relation.ReflTransGen (Linked p.document.parent) context root →
        (Engine.select p.host query context engine).2.caches.named < UInt32.size →
        (Engine.select p.host query root engine).2.caches.named < UInt32.size →
        ∃ found, (Engine.select p.host query root engine).1 = .ok found ∧
          (Engine.select p.host query context engine).1 =
            .ok (found.filter (p.document.contains context))) ∧
      ∀ candidates,
        (Engine.filterCandidates p.host query candidates engine).2.caches.named < UInt32.size →
        (Engine.filterCandidates p.host query candidates engine).1 =
          .ok (candidates.filter accepts) := by
  have hparse := Registry.parse_of_plain Registry.standard_steady hc
  have hmade : Plain.selectorList .standard Registry.standard.plain c.list = .ok c := by
    rw [Plain.plain_eq Registry.standard_steady, hparse] at hc
    exact hc
  have hunscoped := Plain.unscoped_of_unled hunled hmade
  have hled : c.leadsWithSibling = false := hunled.leadsWithSibling
  refine ⟨fun n => p.document.isElement n && c.accepts (p.host.scope none) n, ?_⟩
  intro events hp
  have hselect : ∀ context,
      (Engine.select p.host query context ((start e).after events).engine).2.caches.named <
        UInt32.size →
      (Engine.select p.host query context ((start e).after events).engine).1 =
        .ok ((if p.document.isQueryRoot context = true then
          p.document.descendantElements context else []).filter
            fun n => p.document.isElement n && c.accepts (p.host.scope none) n) := by
    intro context hlt
    obtain ⟨A, N, hsound⟩ := sound_after hnew events (fun _ => Engine.select_adds _ _ _) hlt
    rw [hsound.select_eq hp query context hlt,
      Host.select_eq_filter hfast (by simpa using hnative) hc honly hunscoped hled, p.document_host]
  refine ⟨?_, hselect, ?_, ?_⟩
  · intro n hlt
    obtain ⟨A, N, hsound⟩ :=
      sound_after hnew events (fun _ => Engine.matchesElement_adds _ _ _) hlt
    rw [hsound.matchesElement_eq hp n query hlt, Host.matchesElement_eq_accepts hc honly,
      p.document_host]
  · intro context root hcontext hroot hbelow hlt hltroot
    obtain ⟨A, N, hsound⟩ := sound_after hnew events (fun _ => Engine.select_adds _ _ _) hlt
    refine ⟨_, hselect root hltroot, ?_⟩
    rw [hselect context hlt, if_pos hcontext, if_pos hroot,
      (hsound.forests p hp).descendantElements_eq_filter hbelow, List.filter_filter,
      List.filter_filter]
    refine congrArg Except.ok (List.filter_congr fun n _ => ?_)
    exact Bool.and_comm _ _
  · intro candidates hlt
    obtain ⟨A, N, hsound⟩ :=
      sound_after hnew events (fun _ => Engine.filterCandidates_adds _ _ _) hlt
    rw [hsound.filterCandidates_eq hp query candidates hlt,
      Host.filterCandidates_eq_filter hc honly, p.document_host]

end

section Sample

attribute [local instance] PatternLibrary.standard

def neighbourList : SelectorList :=
  ⟨":has(+ li)", [[⟨":has(+ li)", .pseudo ⟨"has", some "+ li", false⟩⟩]]⟩

def lastItemList : SelectorList :=
  ⟨"li:not(:has(+ li))",
    [[⟨"li", .tag "li"⟩, ⟨":not(:has(+ li))", .pseudo ⟨"not", some ":has(+ li)", false⟩⟩]]⟩

lemma unled_neighbourList : neighbourList.Unled :=
  .of_no_sharing (by decide) (by simp [neighbourList, sharingNames])

/-- The combinator within `:has` does not lead the list. -/
theorem unled_lastItemList : lastItemList.Unled := by
  have hparse : SelectorList.parse ":has(+ li)" = .ok neighbourList := by with_unfolding_all rfl
  exact .of_argument (by decide) (by simp [lastItemList]) hparse unled_neighbourList

lemma exists_plain {query : String} {list : SelectorList}
    (honly : (Registry.standard.plain query).toOption.any Compiled.isElementOnly = true)
    (hlist : SelectorList.parse query = .ok list) (hunled : list.Unled) :
    ∃ c, Registry.standard.plain query = .ok c ∧ c.isElementOnly = true ∧ c.list.Unled := by
  cases hc : Registry.standard.plain query with
  | error fault =>
    rw [hc] at honly
    exact nomatch honly
  | ok c =>
    rw [hc] at honly
    have hparse := Registry.parse_of_plain Registry.standard_steady hc
    rw [Except.ok.inj (hlist.symm.trans hparse)] at hunled
    exact ⟨c, rfl, honly, hunled⟩

theorem select_eq_contained_sample :
    Engine.new groupSettings = .ok (.fresh groupSettings) ∧
      groupSettings.execution.fastPath = false ∧
      (groupSettings.execution.nativeSelect && groupPage.features.nativeSelect) = false ∧
      groupPage ∈ groupWorld.pages ∧
      (Engine.select groupPage.host "li:not(:has(+ li))" 1 groupWorld.engine).1.toOption =
        some [3] ∧
      ∃ c, Registry.standard.plain "li:not(:has(+ li))" = .ok c ∧ c.isElementOnly = true ∧
        c.list.Unled ∧ ∃ accepts : NodeId → Bool,
          (Engine.matchesElement groupPage.host 3 "li:not(:has(+ li))" groupWorld.engine).1 =
            .ok (accepts 3) ∧
          (Engine.select groupPage.host "li:not(:has(+ li))" 1 groupWorld.engine).1 =
            .ok ((if groupPage.document.isQueryRoot 1 = true then
              groupPage.document.descendantElements 1 else []).filter accepts) ∧
          (∃ found,
            (Engine.select groupPage.host "li:not(:has(+ li))" 0 groupWorld.engine).1 =
              .ok found ∧
            (Engine.select groupPage.host "li:not(:has(+ li))" 1 groupWorld.engine).1 =
              .ok (found.filter (groupPage.document.contains 1))) ∧
          (Engine.filterCandidates groupPage.host "li:not(:has(+ li))" [3, 2, 3]
            groupWorld.engine).1 = .ok ([3, 2, 3].filter accepts) := by
  have hnew : Engine.new groupSettings = .ok (.fresh groupSettings) := rfl
  have hfacts : (groupSettings.execution.nativeSelect && groupPage.features.nativeSelect) = false ∧
      groupPage.document.parent 1 = some 0 ∧ groupPage.document.isQueryRoot 1 = true ∧
      groupPage.document.isQueryRoot 0 = true := by
    decide +kernel
  obtain ⟨hnative, hparent, hlist, hroot⟩ := hfacts
  have hpage : groupPage ∈ groupWorld.pages := List.get_mem _ _
  have hanswers :
      (Engine.select groupPage.host "li:not(:has(+ li))" 1 groupWorld.engine).1.toOption =
        some [3] ∧
      (Engine.matchesElement groupPage.host 3 "li:not(:has(+ li))"
        groupWorld.engine).2.caches.named < UInt32.size ∧
      (Engine.select groupPage.host "li:not(:has(+ li))" 1 groupWorld.engine).2.caches.named <
        UInt32.size ∧
      (Engine.select groupPage.host "li:not(:has(+ li))" 0 groupWorld.engine).2.caches.named <
        UInt32.size ∧
      (Engine.filterCandidates groupPage.host "li:not(:has(+ li))" [3, 2, 3]
        groupWorld.engine).2.caches.named < UInt32.size ∧
      (Registry.standard.plain "li:not(:has(+ li))").toOption.any Compiled.isElementOnly =
        true := by
    decide +kernel
  obtain ⟨hfound, hmatched, hselected, hroots, hfiltered, honly⟩ := hanswers
  have hparse : SelectorList.parse "li:not(:has(+ li))" = .ok lastItemList := by
    with_unfolding_all rfl
  obtain ⟨c, hc, honly, hunled⟩ := exists_plain honly hparse unled_lastItemList
  obtain ⟨accepts, haccepts⟩ := select_eq_contained hnew rfl hnative hc honly hunled
  obtain ⟨hmatches, hselect, hcontained, hfilter⟩ := haccepts groupRun hpage
  exact ⟨hnew, rfl, hnative, hpage, hfound, c, hc, honly, hunled, accepts, hmatches 3 hmatched,
    hselect 1 hselected, hcontained 1 0 hlist hroot (.single hparent) hselected hroots,
    hfilter [3, 2, 3] hfiltered⟩

def divisionList : SelectorList :=
  ⟨"div li", [[⟨"div", .tag "div"⟩, ⟨" ", .combinator .descendant⟩, ⟨"li", .tag "li"⟩]]⟩

/-- The last item and what is an item below a division. -/
def spentList : SelectorList :=
  ⟨"ul #x, :is(div li)", [[⟨"ul", .tag "ul"⟩, ⟨" ", .combinator .descendant⟩, ⟨"#x", .id "x"⟩],
    [⟨":is(div li)", .pseudo ⟨"is", some "div li", false⟩⟩]]⟩

lemma unled_divisionList : divisionList.Unled :=
  .of_no_sharing (by decide) (by simp [divisionList])

lemma unled_spentList : spentList.Unled := by
  have hparse : SelectorList.parse "div li" = .ok divisionList := by with_unfolding_all rfl
  exact .of_argument (by decide) (by simp [spentList]) hparse unled_divisionList

/-- A text with an element in it. -/
def textDocument : Document :=
  let (d, text) := (Document.empty false).appendText Document.root "x"
  (d.appendElement text "b" []).1

lemma isForest_textDocument (xml : Bool) : Document.IsForest ⟨textDocument.nodes, xml⟩ := by
  cases xml <;> exact Document.isForest_of_isOrderly (by with_unfolding_all rfl)

def textWorld : World :=
  (start (.fresh spentSettings)).after
    [.create false, .mutate 0 textDocument.nodes isForest_textDocument]

def textPage : HookedPage :=
  { HookedPage.empty 0 false with document := ⟨textDocument.nodes, false⟩ }

/-- No query starts at a text, although elements may be below it. And when names come again, a query
may miss an element that it matches. -/
theorem select_ne_contained_spent :
    Engine.new spentSettings = .ok (.fresh spentSettings) ∧
      spentSettings.execution.fastPath = false ∧
      (∃ c, Registry.standard.plain "b" = .ok c ∧ c.isElementOnly = true ∧ c.list.Unled) ∧
      textPage ∈ textWorld.pages ∧
      ((spentSettings.execution.nativeSelect && textPage.features.nativeSelect) = false ∧
        textPage.document.descendantElements 1 = [2] ∧
        (Engine.matchesElement textPage.host 2 "b" textWorld.engine).1.toOption = some true ∧
        (Engine.select textPage.host "b" 1 textWorld.engine).1.toOption = some []) ∧
      (∃ c, Registry.standard.plain "ul #x, :is(div li)" = .ok c ∧ c.isElementOnly = true ∧
        c.list.Unled) ∧
      spentPage ∈ spentWorld.pages ∧
      (spentSettings.execution.nativeSelect && spentPage.features.nativeSelect) = false ∧
      spentPage.document.descendantElements 0 = [1, 2, 3] ∧
      (Engine.matchesElement spentPage.host 3 "ul #x, :is(div li)"
        spentWorld.engine).1.toOption = some true ∧
      (Engine.select spentPage.host "ul #x, :is(div li)" 0 spentWorld.engine).1.toOption =
        some [] := by
  have hlist : SelectorList.parse "ul #x, :is(div li)" = .ok spentList := by
    with_unfolding_all rfl
  have htag : SelectorList.parse "b" = .ok ⟨"b", [[⟨"b", .tag "b"⟩]]⟩ := by with_unfolding_all rfl
  have hunled : SelectorList.Unled ⟨"b", [[⟨"b", .tag "b"⟩]]⟩ :=
    .of_no_sharing (by decide) (by simp)
  rw [spentWorld_eq]
  exact ⟨rfl, rfl, exists_plain (by decide +kernel) htag hunled, List.mem_singleton_self _,
    by decide +kernel, exists_plain (by decide +kernel) hlist unled_spentList, spentPage_mem _,
    by decide +kernel⟩

end Sample

end World

end TreeQuery
