import TreeQuery.Proofs.Compile.PlanNames
import TreeQuery.Proofs.Compile.Upkeep
import TreeQuery.Proofs.Engine.World
import TreeQuery.Proofs.Tree.Orderly
import TreeQuery.Proofs.Matching.Reentry

/-!
# Anchors between and within queries

An engine hands out selectors whose plans bear different names, so no execution finds a plan running
that it comes to itself. Each gives the table of anchors back as it got it: one that is nested in
the stage of a running plan leaves what that plan has published, and after a query the table is
empty.
-/

namespace TreeQuery

namespace Engine

open Stock

/-- An engine holds compiled selectors and pseudo-classes, and no anchors between queries. -/
def stock : Stock Engine where
  count e := e.caches.named
  Holds known e := CompileCaches.stock.Holds known e.caches ∧ e.registry.Draws known ∧
    e.memo.anchors = []

variable {known : List Plan} {e e' : Engine} {h : Host}

lemma sound_caches (he : stock.Sound known e) : CompileCaches.stock.Sound known e.caches :=
  ⟨he.apart, he.named, he.holds.1⟩

lemma sound_of_memo (he : stock.Sound known e) (hcaches : e'.caches = e.caches)
    (hregistry : e'.registry = e.registry) (hanchors : e'.memo.anchors = []) :
    stock.Sound known e' := by
  refine ⟨he.apart, fun p hp => ?_, ?_, ?_, hanchors⟩
  · show p.id.toNat ≤ e'.caches.named
    rw [hcaches]
    exact he.named p hp
  · rw [hcaches]
    exact he.holds.1
  · rw [hregistry]
    exact he.holds.2.1

lemma anchors_beginQuery_memo (m : Memo) : m.beginQuery.anchors = m.anchors := by
  unfold Memo.beginQuery
  dsimp only
  rw [Memo.anchors_bump]
  split <;> split <;> rfl

lemma anchors_reset (m : Memo) : m.reset.anchors = [] := by
  rw [Memo.reset, Memo.anchors_bump]

lemma count_yields (he : stock.Sound known e) (change : QueryStats → QueryStats) :
    stock.Yields known e (count change e) fun _ _ => True :=
  .same (sound_of_memo he rfl rfl he.holds.2.2) rfl fun _ _ => trivial

lemma adapt_yields (he : stock.Sound known e) (h : Host) (root : NodeId) :
    stock.Yields known e (adapt h root e) fun _ _ => True := by
  have hrenew : ∀ fresh, stock.Yields known e (adapt.renew fresh e) fun _ _ => True :=
    fun _ => .same (sound_of_memo he rfl rfl (anchors_reset _)) rfl fun _ _ => trivial
  rw [adapt, get_bind]
  cases e.adapter with
  | none => exact hrenew _
  | some a =>
    dsimp only
    split
    · exact .pure he trivial
    · exact hrenew _

lemma beginQuery_yields (he : stock.Sound known e) (h : Host) (n : NodeId) :
    stock.Yields known e (beginQuery h n e) fun _ _ => True := by
  refine (adapt_yields he h (h.document.rootOf n)).bind (fun _ _ => Nat.le_refl _)
    fun {_ e' _} _ he' _ => .same (sound_of_memo he' rfl rfl ?_) rfl fun _ _ => trivial
  exact (anchors_beginQuery_memo e'.memo).trans he'.holds.2.2

lemma liftCompile_yields {α : Type} {action : Compile α} {P : List Plan → α → Prop}
    (he : stock.Sound known e)
    (h : CompileCaches.stock.Yields known e.caches (action e.caches) P) :
    stock.Yields known e (liftCompile action e) P := by
  intro hlt
  obtain ⟨known', hgrow, hsound, hmade⟩ := h hlt
  exact ⟨known', hgrow, ⟨hsound.apart, hsound.named, hsound.holds,
    he.holds.2.1.mono hgrow.keeps, he.holds.2.2⟩, hmade⟩

lemma tokenize_yields (he : stock.Sound known e) (query : String) :
    stock.Yields known e (tokenize query e) fun _ _ => True :=
  liftCompile_yields he (Compile.tokenize_yields (sound_caches he) query)

/-- A computation that restores the anchors leaves none between queries. -/
theorem liftRun_yields {α : Type} {plans : List Plan} {action : Run α}
    (he : stock.Sound known e) (haction : Run.Restores plans action) :
    stock.Yields known e (liftRun action e) fun _ _ => True := by
  have hidle : e.memo.Idle plans := fun p _ entry hentry => by
    rw [he.holds.2.2] at hentry
    exact absurd hentry List.not_mem_nil
  exact .same (sound_of_memo he rfl rfl ((haction e.memo hidle).trans he.holds.2.2)) rfl
    fun _ _ => trivial

lemma scanned_yields (he : stock.Sound known e) (s : Scope) {selector : Compiled}
    (hapart : NamedApart selector.plans) (change : QueryStats → QueryStats)
    (pool : List NodeId) :
    stock.Yields known e ((do
      count change
      liftRun (selector.execute s pool) : Action (List NodeId)) e) fun _ _ => True :=
  (count_yields he change).bind (fun _ _ => Nat.le_refl _) fun _ he' _ =>
    liftRun_yields he' (Compiled.execute_restores selector s hapart pool)

lemma shortcut_yields (he : stock.Sound known e) (h : Host) (query : String)
    (context : NodeId) (adapter : Adapter) :
    stock.Yields known e (shortcut h query context adapter e) fun _ _ => True := by
  have hcounted : ∀ (change : QueryStats → QueryStats) (found : Option (List NodeId)),
      stock.Yields known e ((do count change; return found : Action _) e) fun _ _ => True :=
    fun change _ => (count_yields he change).bind (fun _ _ => Nat.le_refl _)
      fun _ he' _ => .pure he' trivial
  rw [shortcut, get_bind]
  cases (if e.settings.execution.fastPath = true then h.quick adapter.features query context
    else none) with
  | some found => exact hcounted _ _
  | none =>
    dsimp only
    split
    · cases h.native query context with
      | some found => exact hcounted _ _
      | none => exact hcounted _ _
    · exact .pure he trivial

/-- Whether given selectors are made of plans of different names, and so is all that an engine
holds. -/
def Accounts (e : Engine) (issued : List Compiled) : Prop :=
  ∃ known, stock.Sound known e ∧ ∀ c ∈ issued, c.plans ⊆ known

lemma Accounts.apart {issued : List Compiled} (h : e.Accounts issued) {c : Compiled} (hc : c ∈ issued) :
    NamedApart c.plans := by
  obtain ⟨known, hsound, hissued⟩ := h
  exact hsound.apart.mono (hissued c hc)

/-- An operation that hands nothing out. -/
theorem Accounts.after {issued : List Compiled} {α : Type} {action : Action α}
    {P : List Plan → α → Prop} (h : e.Accounts issued) (hlt : (action e).2.caches.named < UInt32.size)
    (hyields : ∀ {known}, stock.Sound known e → stock.Yields known e (action e) P) :
    (action e).2.Accounts issued := by
  obtain ⟨known, hsound, hissued⟩ := h
  obtain ⟨known', hgrow, hsound', -⟩ := hyields hsound hlt
  exact ⟨known', hsound', fun c hc => List.Subset.trans (hissued c hc) hgrow.keeps⟩

lemma Accounts.register {issued : List Compiled} (h : e.Accounts issued) (name : String)
    {pseudo : Pseudo} (hdraws : pseudo.Draws (issued.flatMap Compiled.plans)) :
    (e.register name pseudo).Accounts issued := by
  obtain ⟨known, hsound, hissued⟩ := h
  have hpseudo : pseudo.Draws known := by
    refine hdraws.mono fun p hp => ?_
    obtain ⟨c, hc, hp⟩ := List.mem_flatMap.mp hp
    exact hissued c hc hp
  have hheld : CompileCaches.stock.Holds known (e.register name pseudo).caches :=
    fun _ hentry => absurd hentry List.not_mem_nil
  exact ⟨known, ⟨hsound.apart, hsound.named, hheld, hsound.holds.2.1.register name hpseudo,
    hsound.holds.2.2⟩, hissued⟩

lemma Accounts.clearCaches {issued : List Compiled} (h : e.Accounts issued) :
    e.clearCaches.Accounts issued := by
  obtain ⟨known, hsound, hissued⟩ := h
  have hheld : CompileCaches.stock.Holds known e.clearCaches.caches :=
    fun _ hentry => absurd hentry List.not_mem_nil
  exact ⟨known, ⟨hsound.apart, hsound.named, hheld, hsound.holds.2.1, anchors_reset _⟩, hissued⟩

lemma accounts_new {settings : Settings} (hnew : Engine.new settings = .ok e) :
    e.Accounts [] := by
  obtain rfl := eq_fresh_of_new hnew
  have hheld : CompileCaches.stock.Holds [] (fresh settings).caches :=
    fun _ hentry => absurd hentry List.not_mem_nil
  exact ⟨[], ⟨by simp [NamedApart], by simp, hheld, Registry.standard_draws [], rfl⟩, by simp⟩

section

variable [PatternLibrary]

lemma count_le {α : Type} {action : Action α}
    (h : (ledger (fun _ => none) .standard .standard).Adds action) (e : Engine) :
    stock.count e ≤ stock.count (action e).2 :=
  h e

lemma compile_yields (he : stock.Sound known e) (query : String) :
    stock.Yields known e (compile query e) fun known' c => c.value.plans ⊆ known' := by
  rw [compile, get_bind]
  exact liftCompile_yields he (Compile.text_yields he.holds.2.1 (sound_caches he) query)

lemma narrowed_yields (he : stock.Sound known e) (h : Host) (plan : SeedPlan)
    (context : NodeId) (s : Scope) :
    stock.Yields known e ((do
      let seeds := plan.seed.fetch h context
      if plan.isTrivial || seeds.isEmpty then return seeds
      let reduced ← compile plan.reduced
      liftRun (reduced.value.execute s seeds) : Action (List NodeId)) e) fun _ _ => True := by
  dsimp only
  split
  · exact .pure he trivial
  · refine (compile_yields he plan.reduced).bind (fun _ _ => Nat.le_refl _)
      fun {reduced _ _} _ he' hplans => ?_
    exact liftRun_yields he' (Compiled.execute_restores reduced.value s (he'.apart.mono hplans) _)

lemma answer_yields (he : stock.Sound known e) (h : Host) {selector : Compiled}
    (hapart : NamedApart selector.plans) (context : NodeId) (adapter : Adapter) :
    stock.Yields known e (answer h selector context adapter e) fun _ _ => True := by
  rw [answer, get_bind]
  dsimp only
  split
  · cases selector.list.seedPlan adapter.features with
    | none => exact scanned_yields he _ hapart _ _
    | some plan =>
      refine (count_yields he _).bind (fun _ => count_le ?_) fun _ he' _ =>
        narrowed_yields he' h plan context _
      split
      · exact .pure _
      · exact (compile_adds _).bind fun _ => liftRun_adds _
  · exact scanned_yields he _ hapart _ _

lemma select_yields (he : stock.Sound known e) (h : Host) (query : String)
    (context : NodeId) : stock.Yields known e (select h query context e) fun _ _ => True := by
  have hanswer : ∀ adapter found, (ledger (fun _ => none) .standard .standard).Adds
      (match found with
        | some found => (return found : Action (List NodeId))
        | none => do answer h (← compile query).value context adapter) := by
    intro adapter found
    cases found with
    | some found => exact .pure _
    | none => exact (compile_adds query).bind fun _ => answer_adds h _ context adapter
  unfold select
  split
  · refine (count_yields he _).bind (fun _ => count_le <|
      (beginQuery_adds h context).bind fun adapter =>
        (shortcut_adds h query context adapter).bind (hanswer adapter)) fun _ he' _ => ?_
    refine (beginQuery_yields he' h context).bind (fun adapter => count_le <|
      (shortcut_adds h query context adapter).bind (hanswer adapter))
      fun {adapter _ _} _ he' _ => ?_
    refine (shortcut_yields he' h query context adapter).bind
      (fun found => count_le (hanswer adapter found)) fun {found _ _} _ he' _ => ?_
    cases found with
    | some found => exact .pure he' trivial
    | none =>
      exact (compile_yields he' query).bind
        (fun _ => count_le (answer_adds h _ context adapter))
        fun _ he' hplans => answer_yields he' h (he'.apart.mono hplans) context adapter
  · exact .pure he trivial

lemma selectCompiled_yields (he : stock.Sound known e) (h : Host) {selector : Compiled}
    (hapart : NamedApart selector.plans) (context : NodeId) :
    stock.Yields known e (selectCompiled h selector context e) fun _ _ => True := by
  unfold selectCompiled
  split
  · refine (count_yields he _).bind (fun _ => count_le <|
      (beginQuery_adds h context).bind fun adapter => answer_adds h selector context adapter)
      fun _ he' _ => ?_
    exact (beginQuery_yields he' h context).bind
      (fun adapter => count_le (answer_adds h selector context adapter))
      fun {adapter _ _} _ he' _ => answer_yields he' h hapart context adapter
  · exact .pure he trivial

lemma filterCandidates_yields (he : stock.Sound known e) (h : Host) (query : String)
    (candidates : List NodeId) :
    stock.Yields known e (filterCandidates h query candidates e) fun _ _ => True := by
  unfold filterCandidates
  refine (compile_yields he query).bind (fun _ => count_le ?_) fun {selector _ _} _ he' hplans => ?_
  · split
    · exact .pure _
    · exact (beginQuery_adds h _).bind fun _ => liftRun_adds _
  · cases candidates.filter h.document.isElement with
    | nil => exact .pure he' trivial
    | cons first rest =>
      exact (beginQuery_yields he' h first).bind (fun _ _ => Nat.le_refl _)
        fun _ he'' _ => liftRun_yields he''
          (Compiled.execute_restores selector.value _ (he'.apart.mono hplans) _)

lemma matchesElement_yields (he : stock.Sound known e) (h : Host) (n : NodeId)
    (query : String) : stock.Yields known e (matchesElement h n query e) fun _ _ => True := by
  unfold matchesElement
  refine (compile_yields he query).bind (fun _ => count_le ?_) fun {selector _ _} _ he' hplans => ?_
  · split
    · exact (beginQuery_adds h _).bind fun _ => liftRun_adds _
    · exact .pure _
  · split
    · exact (beginQuery_yields he' h n).bind (fun _ _ => Nat.le_refl _)
        fun _ he'' _ => liftRun_yields he''
          (Compiled.anyMatch_restores selector.value _ (he'.apart.mono hplans) _)
    · exact .pure he' trivial

lemma ask_yields (he : stock.Sound known e) (h : Host) (query : Query) :
    stock.Yields known e (query.ask h e) fun _ _ => True := by
  cases query with
  | select text context => exact (select_yields he h text context).map fun _ => trivial
  | filter text candidates =>
    exact (filterCandidates_yields he h text candidates).map fun _ => trivial
  | test text n => exact (matchesElement_yields he h n text).map fun _ => trivial

/-- What an engine and the selectors that it has handed out may have come to. A selector may be run
by another engine than the one that has made it. A pseudo-class that is registered makes no plans by
itself; it may use selectors that were handed out before. What a query compiles by itself is handed
out before the query. -/
inductive Reached : Engine → List Compiled → Prop where
  | new {settings e} : Engine.new settings = .ok e → Reached e []
  | ask {e issued} (h : Host) (query : Query) : Reached e issued →
      Reached (query.ask h e).2 issued
  | selectCompiled {e maker issued made} (h : Host) {c : Compiled} (context : NodeId) :
      Reached e issued → Reached maker made → maker.caches.named < UInt32.size → c ∈ made →
      Reached (Engine.selectCompiled h c context e).2 issued
  | compile {e issued} (text : String) : Reached e issued →
      Reached (Engine.compile text e).2
        (issued ++ ((Engine.compile text e).1.toOption.map Issued.value).toList)
  | tokenize {e issued} (text : String) : Reached e issued →
      Reached (Engine.tokenize text e).2 issued
  | register {e issued} (name : String) {pseudo : Pseudo} : Reached e issued →
      pseudo.Draws (issued.flatMap Compiled.plans) → Reached (e.register name pseudo) issued
  | clearCaches {e issued} : Reached e issued → Reached e.clearCaches issued

variable {issued : List Compiled}

lemma Accounts.compile (h : e.Accounts issued) (text : String)
    (hlt : (Engine.compile text e).2.caches.named < UInt32.size) :
    (Engine.compile text e).2.Accounts
      (issued ++ ((Engine.compile text e).1.toOption.map Issued.value).toList) := by
  obtain ⟨known, hsound, hissued⟩ := h
  obtain ⟨known', hgrow, hsound', hmade⟩ := compile_yields hsound text hlt
  refine ⟨known', hsound', fun c hc => ?_⟩
  obtain hold | hnew := List.mem_append.mp hc
  · exact List.Subset.trans (hissued c hold) hgrow.keeps
  · obtain ⟨made, hout, rfl⟩ := Option.map_eq_some_iff.mp (Option.mem_toList.mp hnew)
    exact hmade made (Fallible.eq_ok_of_toOption hout)

/-- As long as no name was counted twice, all selectors that were handed out are made of plans of
different names, and no anchors are left between queries. -/
theorem Reached.accounts (h : Reached e issued) (hlt : e.caches.named < UInt32.size) :
    e.Accounts issued := by
  induction h with
  | new hnew => exact accounts_new hnew
  | @ask e issued h query _ ih =>
    have hbefore := Nat.lt_of_le_of_lt (count_le (ask_adds h query) e) hlt
    exact (ih hbefore).after hlt fun he => ask_yields he h query
  | @selectCompiled e maker issued made h c context _ _ hmaker hc ih ihmaker =>
    have hbefore := Nat.lt_of_le_of_lt (count_le (selectCompiled_adds h c context) e) hlt
    have hapart := (ihmaker hmaker).apart hc
    exact (ih hbefore).after hlt fun he => selectCompiled_yields he h hapart context
  | @compile e issued text _ ih =>
    have hbefore := Nat.lt_of_le_of_lt (count_le (compile_adds text) e) hlt
    exact (ih hbefore).compile text hlt
  | @tokenize e issued text _ ih =>
    have hbefore := Nat.lt_of_le_of_lt (count_le (tokenize_adds text) e) hlt
    exact (ih hbefore).after hlt fun he => tokenize_yields he text
  | register name _ hdraws ih => exact (ih hlt).register name hdraws
  | clearCaches _ ih => exact (ih hlt).clearCaches

/-- As long as no name was counted twice, every execution that matching comes to gives the anchors
back as it finds them, when an execution of a selector that was handed out starts while none of its
plans is running. Queries start without anchors and leave none. -/
theorem Reached.restores_anchors (h : Reached e issued)
    (hlt : e.caches.named < UInt32.size) :
    e.memo.anchors = [] ∧ (∀ h n, (beginQuery h n e).2.memo.anchors = []) ∧
    ∀ c ∈ issued, ∀ (first : Moment) (pool : List NodeId), first.Runs c pool →
      first.memo.Idle c.plans → ∀ moment, first.ComesTo moment →
      ∀ (inner : Compiled) (innerPool : List NodeId), moment.Runs inner innerPool →
        (inner.execute moment.scope innerPool moment.memo).2.anchors = moment.memo.anchors ∧
        (inner.anyMatch moment.scope innerPool moment.memo).2.anchors = moment.memo.anchors := by
  obtain ⟨known, hsound, -⟩ := h.accounts hlt
  refine ⟨hsound.holds.2.2, fun h n => ?_, ?_⟩
  · have hnamed : (beginQuery h n e).2.caches.named < UInt32.size := by
      rwa [caches_beginQuery]
    obtain ⟨_, -, hbegun, -⟩ := beginQuery_yields hsound h n hnamed
    exact hbegun.holds.2.2
  · intro c hc first pool hruns hidle moment hcomes inner innerPool hinner
    have hapart : NamedApart c.plans := (h.accounts hlt).apart hc
    have hmoment := hcomes.unentered (hruns.unentered hapart hidle)
    exact hmoment.restores_of_runs hinner

end

section Sample

attribute [local instance] PatternLibrary.standard

/-- What the text `:first` compiles to. -/
def firstOnly : Compiled :=
  .mk ⟨":first", [[⟨":first", .pseudo ⟨"first", none, false⟩⟩]]⟩ none
    [.mk 1 [] (.mk (.all []) [.set (.rearrange (·.take 1))]) false]

def firstEngine : Engine := (compile ":first" (fresh .standard)).2

def laterText : String := "ul:first > :not(:first)"

def laterList : SelectorList :=
  ⟨laterText, [[⟨"ul", .tag "ul"⟩, ⟨":first", .pseudo ⟨"first", none, false⟩⟩,
    ⟨" > ", .combinator .child⟩, ⟨":not(:first)", .pseudo ⟨"not", some ":first", false⟩⟩]]⟩

def listStage : Stage :=
  .mk (.check fun s n => s.hasTag "ul" n) [.set (.rearrange (·.take 1))]

def itemTest : Test := .related .child 3 (.anchored 2 0)

/-- The items of the first list but the first item. The selector within is the one of the cache. -/
def laterItems : Compiled :=
  .mk laterList none
    [.mk 2 [listStage] (.mk itemTest [.set (.members firstOnly false)]) false]

def laterEngine : Engine := (compile laterText firstEngine).2

lemma reached_laterEngine : Reached laterEngine [firstOnly, laterItems] := by
  have hparse : SelectorList.parse laterText = .ok laterList := by with_unfolding_all rfl
  have hfirst : (compile ":first" (fresh .standard)).1.toOption.map Issued.value =
      some firstOnly := by
    with_unfolding_all rfl
  have hlater : (compile laterText firstEngine).1.toOption.map Issued.value =
      some laterItems := by
    simp only [compile, get_bind, liftCompile, Compile.text, Compile.textWithin,
      Compile.modifyGet_bind, Compile.tokenize, hparse]
    with_unfolding_all rfl
  have hreached := ((Reached.new new_standard).compile ":first").compile laterText
  rw [hfirst] at hreached
  rw [show (compile ":first" (fresh .standard)).2 = firstEngine from rfl, hlater] at hreached
  exact hreached

def listScope : Scope := (Page.host ⟨.sample, 0, .indexed⟩).scope (some 0)

/-- A plan that narrows by a selector comes to an execution of it, once its stages have run. -/
theorem comesTo_members {s : Scope} {m : Memo} {list : SelectorList} {test : Option Test}
    {id : MatcherId} {stages : List Stage} {last : Test} {inner : Compiled} {kept : Bool}
    {rest : List Matcher} {siblingLed : Bool} {plans : List Plan} {pool : List NodeId}
    {found : List NodeId × Memo}
    (hfound : pool.filterM (last.eval s) (runStages stages id 0 s (s.population siblingLed pool)
      (evalPool test s pool m.bump).2).2 = found) (hsome : found.1.isEmpty = false) :
    Moment.ComesTo
      ⟨s, .execute (.mk list test (.mk id stages (.mk last (.set (.members inner kept) :: rest))
        siblingLed :: plans)) pool, m⟩
      ⟨s, .execute inner found.1, found.2⟩ := by
  subst hfound
  refine .head .executePlans (.head .plansFirst (.head .planLast (.head .stageNarrow ?_)))
  exact .head (.narrowFirst hsome) (.head .matcherSet (.single .members))

/-- The items of the first list, and what is remembered when they are found. -/
def itemsFound : List NodeId × Memo :=
  [1, 2, 3].filterM (itemTest.eval listScope)
    (runStages [listStage] 2 0 listScope [1, 2, 3] laterEngine.memo.bump).2

/-- While the last stage runs, the set that the first stage has left is there before and after the
selector within is executed, and none is left in the end. -/
theorem restores_anchors_laterItems :
    Reached laterEngine [firstOnly, laterItems] ∧ laterEngine.caches.named < UInt32.size ∧
      (laterItems.execute listScope [1, 2, 3] laterEngine.memo).1 = [3] ∧
      (laterItems.execute listScope [1, 2, 3] laterEngine.memo).2.anchors = [] ∧
      Moment.ComesTo ⟨listScope, .execute laterItems [1, 2, 3], laterEngine.memo⟩
        ⟨listScope, .execute firstOnly itemsFound.1, itemsFound.2⟩ ∧
      itemsFound.2.anchors = [((2, 0), [1])] ∧
      (firstOnly.execute listScope itemsFound.1 itemsFound.2).2.anchors = [((2, 0), [1])] := by
  have hfound : laterEngine.caches.named < UInt32.size ∧ itemsFound.1.isEmpty = false ∧
      itemsFound.2.anchors = [((2, 0), [1])] ∧
      (laterItems.execute listScope [1, 2, 3] laterEngine.memo).1 = [3] := by
    decide +kernel
  obtain ⟨hlt, hsome, hanchors, hitems⟩ := hfound
  obtain ⟨hnone, -, hrestores⟩ := reached_laterEngine.restores_anchors hlt
  have hidle : laterEngine.memo.Idle laterItems.plans := by
    simp [Memo.Idle, hnone]
  have hissued : laterItems ∈ [firstOnly, laterItems] := by simp
  have hkept := hrestores laterItems hissued
    ⟨listScope, .execute laterItems [1, 2, 3], laterEngine.memo⟩ [1, 2, 3] (.inl rfl) hidle
  have hcomes : Moment.ComesTo
      ⟨listScope, .execute laterItems [1, 2, 3], laterEngine.memo⟩
      ⟨listScope, .execute firstOnly itemsFound.1, itemsFound.2⟩ :=
    comesTo_members rfl hsome
  have houter := hkept _ .refl laterItems [1, 2, 3] (.inl rfl)
  have hinner := hkept _ hcomes firstOnly itemsFound.1 (.inl rfl)
  exact ⟨reached_laterEngine, hlt, hitems, houter.1.trans hnone, hcomes, hanchors,
    hinner.1.trans hanchors⟩

end Sample

end Engine

end TreeQuery
