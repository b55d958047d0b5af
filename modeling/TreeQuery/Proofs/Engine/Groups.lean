import TreeQuery.Proofs.Engine.Clauses
import TreeQuery.Proofs.Engine.Shape

/-!
# Comma groups

A group selects the union, in document order, of what its clauses find among the candidates of the
group. The candidates are those of the whole group: as soon as one clause starts with a sibling
combinator they are drawn from below the parent of the context, and the other clauses find elements
there too. Where the candidates of a clause are those of the group, it finds among them what it
selects by itself.
-/

namespace TreeQuery

lemma mem_planResults {plans : List Plan} {s : Scope} {pool found : List NodeId} :
    found ∈ planResults plans s pool ↔ ∃ plan ∈ plans, plan.result s pool = found := by
  induction plans with
  | nil => simp [planResults]
  | cons plan rest ih => simp [planResults, ih, eq_comm]

/-- What a clause finds among candidates. -/
def Clause.among [PatternLibrary] (clause : Clause) (s : Scope) (pool : List NodeId) :
    Except SelectorError (List NodeId) :=
  (Plain.clause .standard Registry.standard.plain clause).map (clauseResult s pool)

/-- The elements that a selector is asked about in a query: those below the context or, with a
clause that a sibling combinator leads, below its parent. -/
def Document.candidates (d : Document) (context : NodeId) (siblingLed : Bool) : List NodeId :=
  if d.isQueryRoot context then d.descendantElements (d.searchRoot context siblingLed) else []

lemma Document.IsForest.pairwise_candidates {d : Document} (hforest : d.IsForest)
    (context : NodeId) (siblingLed : Bool) :
    (d.candidates context siblingLed).Pairwise d.Precedes := by
  unfold candidates
  split
  · exact hforest.pairwise_descendantElements _
  · exact .nil

lemma Document.candidates_sublist (d : Document) (context : NodeId) (siblingLed : Bool) :
    (d.candidates context siblingLed).Sublist
      (d.descendantElements (d.searchRoot context siblingLed)) := by
  unfold candidates
  split
  · exact .refl _
  · exact List.nil_sublist _

namespace Plain

lemma mem_foldr_sorted (made : List (Test ⊕ Plan)) :
    (∀ t, t ∈ (made.foldr sorted ([], [])).1 ↔ .inl t ∈ made) ∧
      ∀ plan, plan ∈ (made.foldr sorted ([], [])).2 ↔ .inr plan ∈ made := by
  induction made with
  | nil => simp
  | cons first rest ih =>
    rw [List.foldr_cons]
    generalize rest.foldr sorted ([], []) = others at ih ⊢
    obtain ⟨tests, plans⟩ := others
    cases first with
    | inl t => simp [sorted, ih]
    | inr plan => simp [sorted, ih]

/-- The test and the plans that clauses are put together to find what the clauses find. -/
theorem exists_mem_results {s : Scope} {pool : List NodeId} {made : List (Test ⊕ Plan)}
    {tests : List Test} {plans : List Plan} (hmade : made.foldr sorted ([], []) = (tests, plans))
    {n : NodeId} :
    (∃ found ∈ passing (if tests.isEmpty then none else some (.disjunction tests)) s pool ::
        planResults plans s pool, n ∈ found) ↔ ∃ first ∈ made, n ∈ clauseResult s pool first := by
  obtain ⟨htests, hplans⟩ := mem_foldr_sorted made
  rw [hmade] at htests hplans
  have hpassing : n ∈ passing (if tests.isEmpty then none else some (.disjunction tests)) s pool ↔
      ∃ t ∈ tests, n ∈ passing (some t) s pool := by
    cases tests with
    | nil => simp [passing]
    | cons t rest =>
      rw [List.isEmpty_cons, if_neg Bool.false_ne_true, passing, List.mem_filter,
        disjunction_holds, holdsAny_iff]
      simp only [passing, List.mem_filter]
      exact ⟨fun ⟨hn, t, ht, hholds⟩ => ⟨t, ht, hn, hholds⟩,
        fun ⟨t, ht, hn, hholds⟩ => ⟨hn, t, ht, hholds⟩⟩
  constructor
  · rintro ⟨found, hfound, hmem⟩
    obtain rfl | hfound := List.mem_cons.mp hfound
    · obtain ⟨t, ht, hmem⟩ := hpassing.mp hmem
      exact ⟨.inl t, (htests t).mp ht, hmem⟩
    · obtain ⟨plan, hplan, rfl⟩ := mem_planResults.mp hfound
      exact ⟨.inr plan, (hplans plan).mp hplan, hmem⟩
  · rintro ⟨t | plan, hfirst, hmem⟩
    · exact ⟨_, List.mem_cons_self, hpassing.mpr ⟨t, (htests t).mpr hfirst, hmem⟩⟩
    · have hresult : plan.result s pool ∈ planResults plans s pool :=
        mem_planResults.mpr ⟨plan, (hplans plan).mpr hfirst, rfl⟩
      exact ⟨_, List.mem_cons_of_mem _ hresult, hmem⟩

/-- The selector that clauses are put together to finds the union of what they find. -/
theorem result_eq_unionWithin {s : Scope} (hforest : s.document.IsForest)
    (hcompare : s.host.ComparesInOrder) (list : SelectorList) {made : List (Test ⊕ Plan)}
    {tests : List Test} {plans : List Plan} (hmade : made.foldr sorted ([], []) = (tests, plans))
    (hthins : ∀ plan ∈ plans, plan.Thins) {scope : NodeId} {pool : List NodeId}
    (hpool : pool.Sublist (s.document.descendantElements scope)) :
    (Compiled.mk list (if tests.isEmpty then none else some (.disjunction tests)) plans).result s
        pool = unionWithin pool (made.map (clauseResult s pool)) := by
  have hsub : ∀ found ∈ passing (if tests.isEmpty then none else some (.disjunction tests)) s pool ::
      planResults plans s pool, found.Sublist pool := by
    intro found hfound
    obtain rfl | hfound := List.mem_cons.mp hfound
    · cases (if tests.isEmpty then none else some (Test.disjunction tests)) with
      | none => exact List.nil_sublist _
      | some t => exact List.filter_sublist
    · obtain ⟨plan, hplan, rfl⟩ := mem_planResults.mp hfound
      exact Plan.result_sublist (hthins plan hplan) _
  rw [Compiled.result, s.host.merge_eq_unionWithin hforest hcompare hpool hsub]
  refine List.filter_congr fun n _ => ?_
  rw [Bool.eq_iff_iff, List.any_eq_true, List.any_eq_true]
  simp only [List.contains_iff_mem]
  rw [exists_mem_results hmade]
  constructor
  · rintro ⟨first, hfirst, hmem⟩
    exact ⟨_, List.mem_map_of_mem hfirst, hmem⟩
  · rintro ⟨_, hfound, hmem⟩
    obtain ⟨first, hfirst, rfl⟩ := List.mem_map.mp hfound
    exact ⟨first, hfirst, hmem⟩

lemma exists_of_mem_mapM {f : Clause → Except SelectorError (Test ⊕ Plan)} :
    ∀ {cs : List Clause} {made : List (Test ⊕ Plan)}, cs.mapM f = .ok made →
      ∀ first ∈ made, ∃ c ∈ cs, f c = .ok first
  | [], _, h, _, hfirst => by
    obtain rfl := Except.ok.inj h
    exact nomatch hfirst
  | c :: rest, made, h, first, hfirst => by
    rw [List.mapM_cons] at h
    cases hc : f c with
    | error e => simp [hc, bind, Except.bind] at h
    | ok head =>
      cases hrest : rest.mapM f with
      | error e => simp [hc, hrest, bind, Except.bind] at h
      | ok others =>
        rw [hc, hrest] at h
        obtain rfl := Except.ok.inj h
        obtain rfl | hfirst := List.mem_cons.mp hfirst
        · exact ⟨c, List.mem_cons_self, hc⟩
        · obtain ⟨c', hc', hmade⟩ := exists_of_mem_mapM hrest first hfirst
          exact ⟨c', List.mem_cons_of_mem _ hc', hmade⟩

variable [PatternLibrary]

lemma clauses_eq_mapM (registry : Registry) (nested : String → Except SelectorError Compiled) :
    ∀ cs : List Clause, clauses registry nested cs =
      (cs.mapM (clause registry nested)).map fun made => made.foldr sorted ([], [])
  | [] => rfl
  | c :: rest => by
    rw [clauses, List.mapM_cons, clauses_eq_mapM registry nested rest]
    cases clause registry nested c with
    | error e => rfl
    | ok made => cases rest.mapM (clause registry nested) <;> rfl

lemma mapM_among (s : Scope) (pool : List NodeId) : ∀ cs : List Clause,
    (cs.mapM fun c : Clause => c.among s pool) =
      (cs.mapM (clause .standard Registry.standard.plain)).map (·.map (clauseResult s pool))
  | [] => rfl
  | c :: rest => by
    rw [List.mapM_cons, List.mapM_cons, mapM_among s pool rest, Clause.among]
    cases clause .standard Registry.standard.plain c with
    | error e => rfl
    | ok made => cases rest.mapM (clause .standard Registry.standard.plain) <;> rfl

/-- A list of one clause finds what the clause finds. -/
theorem map_result_singleton {source : String} (s : Scope) (pool : List NodeId) (c : Clause) :
    (selectorList .standard Registry.standard.plain ⟨source, [c]⟩).map (·.result s pool) =
      c.among s pool := by
  unfold selectorList Clause.among
  rw [clauses_eq_mapM, List.mapM_cons]
  cases clause .standard Registry.standard.plain c with
  | error e => rfl
  | ok made =>
    refine congrArg Except.ok ?_
    cases made with
    | inl t => exact Compiled.result_of_no_plans _ (some t) s pool
    | inr plan =>
      have hresult : (Compiled.mk ⟨source, [c]⟩ none [plan]).result s pool =
          s.host.merge [[], plan.result s pool] := rfl
      refine hresult.trans (Eq.trans ?_ (s.host.merge_singleton (plan.result s pool)))
      simp [Host.merge]

/-- A list finds the union of what its clauses find. -/
theorem map_result_selectorList {s : Scope} (hforest : s.document.IsForest)
    (hcompare : s.host.ComparesInOrder) (list : SelectorList) {scope : NodeId}
    {pool : List NodeId} (hpool : pool.Sublist (s.document.descendantElements scope)) :
    (selectorList .standard Registry.standard.plain list).map (·.result s pool) =
      (list.clauses.mapM fun c : Clause => c.among s pool).map (unionWithin pool) := by
  unfold selectorList
  rw [clauses_eq_mapM, mapM_among]
  cases hmade : list.clauses.mapM (clause .standard Registry.standard.plain) with
  | error e => rfl
  | ok made =>
    have hthins : ∀ plan ∈ (made.foldr sorted ([], [])).2, plan.Thins := by
      intro plan hplan
      obtain ⟨c, -, hc⟩ := exists_of_mem_mapM hmade _ (((mem_foldr_sorted made).2 plan).mp hplan)
      exact thins_of_clause Registry.standard_thins hc
    exact congrArg Except.ok (result_eq_unionWithin hforest hcompare list rfl hthins hpool)

end Plain

namespace Engine

variable [PatternLibrary]

/-- Compiles a selector list that was read, with a depth for the selectors in it that is enough. -/
def compileList (depth : Nat) (list : SelectorList) : Action Compiled :=
  liftCompile (Compile.selectorList .standard (Compile.nestedWithin .standard depth) list)

/-- The elements under a context that a selector list selects. -/
def selectList (depth : Nat) (h : Host) (list : SelectorList) (context : NodeId) :
    Action (List NodeId) := do
  selectCompiled h (← compileList depth list) context

variable {A : Adverts} {settings : Settings} {N : Naming} {e : Engine} {h : Host} {depth : Nat}
  {list : SelectorList}

lemma selectList_adds (context : NodeId) :
    (ledger A .standard settings).Adds (selectList depth h list context) :=
  (liftCompile_adds (Compile.selectorList_adds (Compile.nestedWithin_adds depth) list)).bind
    fun _ => selectCompiled_adds h _ context

lemma list_of_selectorList {c : Compiled}
    (hc : Plain.selectorList .standard Registry.standard.plain list = .ok c) : c.list = list := by
  unfold Plain.selectorList at hc
  cases hclauses : Plain.clauses .standard Registry.standard.plain list.clauses with
  | error fault =>
    rw [hclauses] at hc
    exact nomatch hc
  | ok made =>
    rw [hclauses] at hc
    exact Except.ok.inj hc ▸ rfl

lemma compileList_follows (he : e.Sound A .standard settings N)
    (hlist : ∀ clause ∈ list.clauses, ∀ t ∈ clause, t.Within depth) :
    (ledger A .standard settings).Follows N e (compileList depth list e)
      (Plain.selectorList .standard Registry.standard.plain list) Compile.CompiledFollows :=
  liftCompile_follows he <| Compile.selectorList_follows Registry.standard_steady
    (Compile.compiles_nestedWithin Registry.standard_steady (Nat.le_refl depth)) he.caches hlist

/-- Without the fast path a list selects what it finds among the candidates. -/
theorem selectList_eq (he : e.Sound A .standard settings N)
    (hfast : settings.execution.fastPath = false) (hforest : h.document.IsForest)
    (hfinds : h.FindsElements) (hknown : h.Known A)
    (hlist : ∀ clause ∈ list.clauses, ∀ t ∈ clause, t.Within depth) (context : NodeId)
    (hlt : (selectList depth h list context e).2.caches.named < UInt32.size) :
    (selectList depth h list context e).1 =
      (Plain.selectorList .standard Registry.standard.plain list).map fun c =>
        c.result (h.scope (some context)) (h.document.candidates context list.leadsWithSibling) := by
  have hselected : (ledger A .standard settings).Follows N e (selectList depth h list context e)
      (Plain.selectorList .standard Registry.standard.plain list >>= fun c =>
        .ok (c.result (h.scope (some context))
          (h.document.candidates context list.leadsWithSibling))) fun _ a b => a = b := by
    refine (compileList_follows he hlist).given.bind (fun c => selectCompiled_adds h c context)
      fun {c c' e' N'} _ he' hc => ?_
    obtain ⟨⟨rfl, hfits⟩, hplain⟩ := hc
    have hanswer : (if h.document.isQueryRoot context = true then
        h.answer .standard settings.execution c context else .ok []) =
          .ok (c.unnamed.result (h.scope (some context))
            (h.document.candidates context list.leadsWithSibling)) := by
      rw [Compiled.result_unnamed, Document.candidates]
      split
      · rw [Host.answer, Host.seedPlan, hfast, Host.scan, Compiled.searchRoot,
          Compiled.leadsWithSibling, ← list_of_selectorList hplain, Compiled.list_unnamed]
        rfl
      · have hnone := Compiled.result_subset (h.scope (some context)) c [] hfits
        rw [List.subset_nil.mp hnone]
    rw [← hanswer]
    exact selectCompiled_follows Registry.standard_steady he' hforest hfinds hknown hfits context
  obtain ⟨_, _, _, hagree⟩ := hselected hlt
  rw [hagree.eq]
  cases Plain.selectorList .standard Registry.standard.plain list <;> rfl

/-- Without the fast path a list selects the union of what its clauses find among its candidates. -/
theorem selectList_eq_among (he : e.Sound A .standard settings N)
    (hfast : settings.execution.fastPath = false) (hforest : h.document.IsForest)
    (hcompare : h.ComparesInOrder) (hfinds : h.FindsElements) (hknown : h.Known A)
    (hlist : ∀ clause ∈ list.clauses, ∀ t ∈ clause, t.Within depth) (context : NodeId)
    (hlt : (selectList depth h list context e).2.caches.named < UInt32.size) :
    (selectList depth h list context e).1 =
      (list.clauses.mapM fun clause : Clause => clause.among (h.scope (some context))
        (h.document.candidates context list.leadsWithSibling)).map
          (unionWithin (h.document.candidates context list.leadsWithSibling)) := by
  rw [selectList_eq he hfast hforest hfinds hknown hlist context hlt]
  exact Plain.map_result_selectorList (s := h.scope (some context)) hforest hcompare list
    (h.document.candidates_sublist context _)

end Engine

namespace World

section

variable [PatternLibrary]

/-- Without the fast path a group selects, in document order and each once, the elements that its
clauses find among its candidates. A clause whose candidates are those of the group finds among them
what it selects by itself; any other clause is asked about the siblings of the context too. -/
theorem selectList_eq_union {settings : Settings} {e : Engine} (hnew : Engine.new settings = .ok e)
    (hfast : settings.execution.fastPath = false) (events : List Event) {p : HookedPage}
    (hp : p ∈ ((start e).after events).pages) {text : String} {list : SelectorList}
    (hparse : SelectorList.parse text = .ok list) {depth : Nat} (hdepth : text.length ≤ depth)
    (context : NodeId)
    (hlt : (Engine.selectList depth p.host list context
      ((start e).after events).engine).2.caches.named < UInt32.size) :
    let pool := p.document.candidates context list.leadsWithSibling
    let among := fun clause : Clause => clause.among (p.host.scope (some context)) pool
    pool.Pairwise p.document.Precedes ∧
      (Engine.selectList depth p.host list context ((start e).after events).engine).1 =
        (list.clauses.mapM among).map (unionWithin pool) ∧
      ∀ clause ∈ list.clauses,
        p.document.searchRoot context clause.leadsWithSibling =
          p.document.searchRoot context list.leadsWithSibling →
        (Engine.selectList depth p.host ⟨clause.text, [clause]⟩ context
          ((start e).after events).engine).2.caches.named < UInt32.size →
        (Engine.selectList depth p.host ⟨clause.text, [clause]⟩ context
          ((start e).after events).engine).1 = among clause := by
  intro pool among
  have hadds : (Engine.ledger (fun _ => none) .standard settings).Adds
      (Engine.selectList depth p.host list context) := Engine.selectList_adds context
  have hstart := sound_start (Engine.sound_new hnew fun _ => none)
  obtain ⟨A, N, -, hsound⟩ := hstart.after events (Nat.lt_of_le_of_lt (hadds _) hlt)
  have hknown : p.host.Known A := by simpa [Host.Known] using hsound.known p hp
  have hpage := hsound.forests p hp
  have hforest : p.host.document.IsForest := by simpa using hpage
  have hlist : ∀ clause ∈ list.clauses, ∀ t ∈ clause, t.Within depth := fun clause hclause t ht =>
    (SelectorList.parse_within hparse clause hclause t ht).mono hdepth
  refine ⟨hpage.pairwise_candidates context _, ?_, fun clause hclause hroot hlt => ?_⟩
  · have hselected := Engine.selectList_eq_among hsound.engine hfast hforest
      (HookedPage.comparesInOrder_host hpage) p.findsElements_host hknown hlist context hlt
    rwa [p.document_host] at hselected
  · have hsingle : (⟨clause.text, [clause]⟩ : SelectorList).leadsWithSibling =
        clause.leadsWithSibling := by
      simp [SelectorList.leadsWithSibling]
    have hpool : p.document.candidates context clause.leadsWithSibling = pool := by
      unfold Document.candidates pool Document.candidates
      rw [hroot]
    have hselected := Engine.selectList_eq hsound.engine hfast hforest p.findsElements_host hknown
      (by simpa using hlist clause hclause) context hlt
    rw [hselected, hsingle, p.document_host, hpool]
    exact Plain.map_result_singleton _ pool clause

end

section Sample

attribute [local instance] PatternLibrary.standard

def groupSettings : Settings := Settings.standard.withFastPath false

/-- A page comes and gets a list of two items. -/
def groupRun : List Event :=
  [.create false, .mutate 0 Document.sample.nodes Document.isForest_sample]

def groupWorld : World := (start (.fresh groupSettings)).after groupRun

lemma zero_lt_pages_groupWorld : 0 < groupWorld.pages.length := Nat.one_pos

def groupPage : HookedPage := groupWorld.pages.get ⟨0, zero_lt_pages_groupWorld⟩

def itemClause : Clause := [⟨"li", .tag "li"⟩]

def laterClause : Clause := [⟨"~ ", .combinator .sibling⟩, ⟨"#x", .id "x"⟩]

def mixedList : SelectorList := ⟨"~ #x, li", [laterClause, itemClause]⟩

/-- Under the first item the clause `li` selects nothing by itself, and as one of two clauses it
finds both items. -/
theorem selectList_eq_union_sample :
    Engine.new groupSettings = .ok (.fresh groupSettings) ∧
      groupSettings.execution.fastPath = false ∧ groupPage ∈ groupWorld.pages ∧
      SelectorList.parse "~ #x, li" = .ok mixedList ∧ "~ #x, li".length ≤ 8 ∧
      (Engine.selectList 8 groupPage.host mixedList 2 groupWorld.engine).2.caches.named <
        UInt32.size ∧
      (Engine.selectList 8 groupPage.host mixedList 2 groupWorld.engine).1.toOption =
        some [2, 3] ∧
      (Engine.selectList 8 groupPage.host ⟨"li", [itemClause]⟩ 2
        groupWorld.engine).1.toOption = some [] ∧
      (Engine.selectList 8 groupPage.host mixedList 2 groupWorld.engine).1 =
        (mixedList.clauses.mapM fun clause : Clause =>
          clause.among (groupPage.host.scope (some 2))
            (groupPage.document.candidates 2 true)).map
              (unionWithin (groupPage.document.candidates 2 true)) ∧
      (Engine.selectList 8 groupPage.host ⟨laterClause.text, [laterClause]⟩ 2
        groupWorld.engine).1 =
          laterClause.among (groupPage.host.scope (some 2))
            (groupPage.document.candidates 2 true) := by
  have hnew : Engine.new groupSettings = .ok (.fresh groupSettings) := rfl
  have hpage : groupPage ∈ groupWorld.pages := List.get_mem _ _
  have hparse : SelectorList.parse "~ #x, li" = .ok mixedList := by with_unfolding_all rfl
  have hdepth : "~ #x, li".length ≤ 8 := by decide
  obtain ⟨hlt, hfound, halone, hcount⟩ :
      (Engine.selectList 8 groupPage.host mixedList 2 groupWorld.engine).2.caches.named <
        UInt32.size ∧
      (Engine.selectList 8 groupPage.host mixedList 2 groupWorld.engine).1.toOption =
        some [2, 3] ∧
      (Engine.selectList 8 groupPage.host ⟨"li", [itemClause]⟩ 2
        groupWorld.engine).1.toOption = some [] ∧
      (Engine.selectList 8 groupPage.host ⟨laterClause.text, [laterClause]⟩ 2
        groupWorld.engine).2.caches.named < UInt32.size := by
    decide +kernel
  obtain ⟨-, hunion, hsingle⟩ := selectList_eq_union hnew rfl groupRun
    hpage hparse hdepth 2 hlt
  exact ⟨hnew, rfl, hpage, hparse, hdepth, hlt, hfound, halone, hunion,
    hsingle laterClause (by simp [mixedList]) rfl hcount⟩

end Sample

end World

end TreeQuery
