import TreeQuery.Proofs.Engine.Answers

/-!
# Operations of an engine

Every operation on a sound engine gives its answer, or fails with the error of the answer, and
leaves a sound engine.
-/

namespace TreeQuery

namespace Engine

lemma caches_adapt (h : Host) (root : NodeId) (e : Engine) :
    (adapt h root e).2.caches = e.caches := by
  rw [adapt, get_bind]
  cases e.adapter with
  | none => rfl
  | some a =>
    dsimp only
    split <;> rfl

lemma caches_beginQuery (h : Host) (n : NodeId) (e : Engine) :
    (beginQuery h n e).2.caches = e.caches := by
  rw [← caches_adapt h (h.document.rootOf n) e, beginQuery, Fallible.bind_apply]
  rcases adapt h (h.document.rootOf n) e with ⟨_ | _, _⟩ <;> rfl

lemma exists_beginQuery (h : Host) (n : NodeId) (e : Engine) :
    ∃ adapter e', beginQuery h n e = (.ok adapter, e') := by
  have hadapt : ∃ adapter e', adapt h (h.document.rootOf n) e = (.ok adapter, e') := by
    rw [adapt, get_bind]
    cases e.adapter with
    | none => exact ⟨_, _, rfl⟩
    | some a =>
      dsimp only
      split
      · exact ⟨_, _, rfl⟩
      · exact ⟨_, _, rfl⟩
  obtain ⟨adapter, e', hadapt⟩ := hadapt
  rw [beginQuery, Fallible.bind_apply, hadapt]
  exact ⟨adapter, _, rfl⟩

lemma settings_beginQuery (h : Host) (n : NodeId) (e : Engine) :
    (beginQuery h n e).2.settings = e.settings := by
  have hadapt : ∀ root, (adapt h root e).2.settings = e.settings := by
    intro root
    rw [adapt, get_bind]
    cases e.adapter with
    | none => rfl
    | some a =>
      dsimp only
      split <;> rfl
  rw [← hadapt (h.document.rootOf n), beginQuery, Fallible.bind_apply]
  rcases adapt h (h.document.rootOf n) e with ⟨_ | _, _⟩ <;> rfl

variable [PatternLibrary]

variable {A : Adverts} {r : Registry} {settings : Settings} {N : Naming} {e : Engine} {h : Host}

lemma adapt_follows (he : e.Sound A r settings N) (hknown : h.Known A) (root : NodeId) :
    (ledger A r settings).Follows N e (adapt h root e) (.ok (h.adapterAt root))
      fun _ a b => a = b := by
  have hrenew :
      Sound A r settings N { e with adapter := some (h.adapterAt root), memo := e.memo.reset } :=
    ⟨he.registry, he.settings, he.caches, Memo.valid_reset _, Memo.forgotten_reset _,
      fun a ha => Option.some.inj ha ▸ hknown⟩
  rw [adapt, get_bind]
  cases hadapter : e.adapter with
  | none => exact .ok hrenew rfl rfl
  | some a =>
    dsimp only
    split
    · rename_i hsame
      have ha := he.adapter a hadapter
      rw [hsame.1, hknown] at ha
      obtain ⟨hfeatures, hxml⟩ := Prod.mk.inj (Option.some.inj ha)
      refine .ok he rfl ?_
      rw [Host.adapterAt, ← hsame.1, ← hsame.2, hfeatures, hxml]
    · exact .ok hrenew rfl rfl

lemma prepare_adds (adapter : Adapter) :
    (ledger A r settings).Adds (do
      modify fun e => { e with memo := e.memo.beginQuery }
      return adapter) := fun _ => Nat.le_refl _

lemma beginQuery_adds (h : Host) (n : NodeId) : (ledger A r settings).Adds (beginQuery h n) :=
  fun e => Nat.le_of_eq (congrArg CompileCaches.named (caches_beginQuery h n e).symm)

lemma beginQuery_follows (he : e.Sound A r settings N) (hknown : h.Known A) (n : NodeId) :
    (ledger A r settings).Follows N e (beginQuery h n e)
      (.ok (h.adapterAt (h.document.rootOf n))) fun _ a b => a = b := by
  refine (adapt_follows he hknown (h.document.rootOf n)).bind_ok prepare_adds
    fun {adapter e' N'} _ he' hadapter => ?_
  exact .ok ⟨he'.registry, he'.settings, he'.caches, he'.memo.beginQuery,
    he'.memo.forgotten_beginQuery, he'.adapter⟩ rfl hadapter

lemma execute_follows (he : e.Sound A r settings N) (hforest : h.document.IsForest)
    {selector : Compiled} (hfits : selector.Fits N) (context : Option NodeId) {pool : List NodeId}
    (helem : ∀ n ∈ pool, h.document.isElement n = true) :
    (ledger A r settings).Follows N e (liftRun (selector.execute (h.scope context) pool) e)
      (.ok (selector.result (h.scope context) pool)) fun _ a b => a = b :=
  liftRun_follows he (Compiled.execute_gives selector (h.scope context) hforest hfits pool helem)

/-- What is left to do when a seed plan has been made. -/
def answerNarrowed (h : Host) (plan : SeedPlan) (context : NodeId) : Action (List NodeId) :=
  let seeds := plan.seed.fetch h context
  if plan.isTrivial || seeds.isEmpty then return seeds
  else do
    let reduced ← compile plan.reduced
    liftRun (reduced.value.execute (h.scope (some context)) seeds)

lemma answerNarrowed_adds (h : Host) (plan : SeedPlan) (context : NodeId) :
    (ledger A r settings).Adds (answerNarrowed h plan context) := by
  unfold answerNarrowed
  dsimp only
  split
  · exact .pure _
  · exact (compile_adds _).bind fun _ => liftRun_adds _

lemma answerNarrowed_follows (hr : r.Steady) (he : e.Sound A r settings N)
    (hforest : h.document.IsForest) (hfinds : h.FindsElements) {plan : SeedPlan}
    (hasked : plan.seed.IsAsked h.features) (context : NodeId) :
    (ledger A r settings).Follows N e (answerNarrowed h plan context e)
      (h.narrowTo r plan context) fun _ a b => a = b := by
  unfold answerNarrowed Host.narrowTo
  dsimp only
  split
  · exact .ok he rfl rfl
  · refine (compile_follows hr he plan.reduced).bind (fun _ => liftRun_adds _)
      fun {reduced reduced' e' N'} _ he' hreduced => ?_
    obtain ⟨rfl, hfits⟩ := hreduced
    rw [Compiled.result_unnamed]
    exact execute_follows he' hforest hfits (some context) (hfinds plan.seed context hasked)

lemma answer_eq (h : Host) (selector : Compiled) (context root : NodeId) (e : Engine) :
    answer h selector context (h.adapterAt root) e =
      (match h.seedPlan e.settings.execution selector with
      | some plan => do
        count fun s => { s with narrowed := s.narrowed + 1 }
        answerNarrowed h plan context
      | none => do
        count fun s => { s with fullScans := s.fullScans + 1 }
        liftRun (selector.execute (h.scope (some context))
          (h.document.descendantElements (selector.searchRoot h.document context))) :
        Action (List NodeId)) e := by
  rw [answer, get_bind, Host.seedPlan]
  rfl

lemma answer_adds (h : Host) (selector : Compiled) (context : NodeId) (adapter : Adapter) :
    (ledger A r settings).Adds (answer h selector context adapter) := by
  refine Ledger.Adds.bind (fun _ => Nat.le_refl _) fun e => ?_
  dsimp only
  split
  · refine (count_adds _).bind fun _ => ?_
    split
    · exact .pure _
    · exact (compile_adds _).bind fun _ => liftRun_adds _
  · exact (count_adds _).bind fun _ => liftRun_adds _

lemma answer_follows (hr : r.Steady) (he : e.Sound A r settings N)
    (hforest : h.document.IsForest) (hfinds : h.FindsElements) {selector : Compiled}
    (hfits : selector.Fits N) (context root : NodeId) :
    (ledger A r settings).Follows N e (answer h selector context (h.adapterAt root) e)
      (h.answer r settings.execution selector context) fun _ a b => a = b := by
  rw [answer_eq, Host.answer, he.settings]
  cases hplan : h.seedPlan settings.execution selector with
  | some plan =>
    have hasked := Host.isAsked_of_seedPlan hplan
    exact (count_follows he _).bind_ok (fun _ => answerNarrowed_adds h plan context)
      fun _ he' _ => answerNarrowed_follows hr he' hforest hfinds hasked context
  | none =>
    refine (count_follows he _).bind_ok (fun _ => liftRun_adds _) fun {_ e' N'} hgrows he' _ => ?_
    exact execute_follows he' hforest (Compiled.Fits.mono hgrows.keeps selector hfits) (some context)
      fun n hn => Document.isElement_of_descendantElements hn

lemma shortcut_adds (h : Host) (query : String) (context : NodeId) (adapter : Adapter) :
    (ledger A r settings).Adds (shortcut h query context adapter) := by
  refine Ledger.Adds.bind (fun _ => Nat.le_refl _) fun e => ?_
  dsimp only
  split
  · exact (count_adds _).bind fun _ => .pure _
  · split
    · split
      · exact (count_adds _).bind fun _ => .pure _
      · exact (count_adds _).bind fun _ => .pure _
    · exact .pure _

lemma shortcut_follows (he : e.Sound A r settings N) (query : String) (context root : NodeId) :
    (ledger A r settings).Follows N e (shortcut h query context (h.adapterAt root) e)
      (.ok (h.shortcut settings.execution query context)) fun _ a b => a = b := by
  have hcounted : ∀ (change : QueryStats → QueryStats) (found : Option (List NodeId)),
      (ledger A r settings).Follows N e ((do count change; return found : Action _) e) (.ok found)
        fun _ a b => a = b := fun change found =>
    (count_follows he change).bind_ok (fun _ => .pure _) fun _ he' _ => .ok he' rfl rfl
  rw [shortcut, get_bind, Host.shortcut, he.settings, Host.features_adapterAt]
  cases (if settings.execution.fastPath = true then h.quick h.features query context else none) with
  | some found => exact hcounted _ _
  | none =>
    rw [Option.none_or]
    dsimp only
    by_cases hnative : (settings.execution.nativeSelect && h.features.nativeSelect) = true
    · rw [if_pos hnative, if_pos hnative]
      cases h.native query context with
      | some found => exact hcounted _ _
      | none => exact hcounted _ _
    · rw [if_neg hnative, if_neg hnative]
      exact .ok he rfl rfl

lemma select_adds (h : Host) (query : String) (context : NodeId) :
    (ledger A r settings).Adds (select h query context) := by
  unfold select
  split
  · refine (count_adds _).bind fun _ => (beginQuery_adds h context).bind fun adapter => ?_
    refine (shortcut_adds h query context adapter).bind fun found => ?_
    cases found with
    | some found => exact .pure _
    | none => exact (compile_adds query).bind fun _ => answer_adds h _ context adapter
  · exact .pure _

/-- A query selects what it selects without any caches. -/
theorem select_follows (hr : r.Steady) (he : e.Sound A r settings N) (hforest : h.document.IsForest)
    (hfinds : h.FindsElements) (hknown : h.Known A) (query : String) (context : NodeId) :
    (ledger A r settings).Follows N e (select h query context e)
      (h.select r settings.execution query context) fun _ a b => a = b := by
  have hanswer : ∀ adapter found, (ledger A r settings).Adds (match found with
      | some found => (return found : Action (List NodeId))
      | none => do answer h (← compile query).value context adapter) := by
    intro adapter found
    cases found with
    | some found => exact .pure _
    | none => exact (compile_adds query).bind fun _ => answer_adds h _ context adapter
  unfold select Host.select
  split
  · refine (count_follows he _).bind_ok (fun _ => (beginQuery_adds h context).bind fun adapter =>
      (shortcut_adds h query context adapter).bind (hanswer adapter)) fun _ he' _ => ?_
    refine (beginQuery_follows he' hknown context).bind_ok (fun adapter =>
      (shortcut_adds h query context adapter).bind (hanswer adapter)) fun _ he' hadapter => ?_
    subst hadapter
    refine (shortcut_follows he' query context _).bind_ok (hanswer _) fun _ he' hfound => ?_
    subst hfound
    cases h.shortcut settings.execution query context with
    | some found => exact .ok he' rfl rfl
    | none =>
      refine (compile_follows hr he' query).bind (fun _ => answer_adds h _ context _)
        fun {selector plain _ _} _ he' hselector => ?_
      obtain ⟨rfl, hfits⟩ := hselector
      rw [Host.answer_unnamed]
      exact answer_follows hr he' hforest hfinds hfits context _
  · exact .ok he rfl rfl

lemma selectCompiled_adds (h : Host) (selector : Compiled) (context : NodeId) :
    (ledger A r settings).Adds (selectCompiled h selector context) := by
  unfold selectCompiled
  split
  · exact (count_adds _).bind fun _ => (beginQuery_adds h context).bind fun adapter =>
      answer_adds h selector context adapter
  · exact .pure _

lemma selectCompiled_follows (hr : r.Steady) (he : e.Sound A r settings N)
    (hforest : h.document.IsForest) (hfinds : h.FindsElements) (hknown : h.Known A)
    {selector : Compiled} (hfits : selector.Fits N) (context : NodeId) :
    (ledger A r settings).Follows N e (selectCompiled h selector context e)
      (if h.document.isQueryRoot context then h.answer r settings.execution selector context
        else .ok []) fun _ a b => a = b := by
  unfold selectCompiled
  split
  · refine (count_follows he _).bind_ok (fun _ => (beginQuery_adds h context).bind fun adapter =>
      answer_adds h selector context adapter) fun hgrows he' _ => ?_
    have hfits := Compiled.Fits.mono hgrows.keeps selector hfits
    refine (beginQuery_follows he' hknown context).bind_ok
      (fun adapter => answer_adds h selector context adapter) fun hgrows he' hadapter => ?_
    subst hadapter
    exact answer_follows hr he' hforest hfinds (Compiled.Fits.mono hgrows.keeps selector hfits)
      context _
  · exact .ok he rfl rfl

lemma filterCandidates_adds (h : Host) (query : String) (candidates : List NodeId) :
    (ledger A r settings).Adds (filterCandidates h query candidates) := by
  refine (compile_adds query).bind fun selector => ?_
  split
  · exact .pure _
  · exact (beginQuery_adds h _).bind fun _ => liftRun_adds _

lemma filterCandidates_follows (hr : r.Steady) (he : e.Sound A r settings N)
    (hforest : h.document.IsForest) (hknown : h.Known A) (query : String)
    (candidates : List NodeId) :
    (ledger A r settings).Follows N e (filterCandidates h query candidates e)
      (h.filterCandidates r query candidates) fun _ a b => a = b := by
  have helem : ∀ n ∈ candidates.filter h.document.isElement, h.document.isElement n = true :=
    fun n hn => (List.mem_filter.mp hn).2
  unfold filterCandidates Host.filterCandidates
  refine (compile_follows hr he query).bind (fun _ => ?_)
    fun {selector plain _ _} _ he' hselector => ?_
  · split
    · exact .pure _
    · exact (beginQuery_adds h _).bind fun _ => liftRun_adds _
  obtain ⟨rfl, hfits⟩ := hselector
  rw [Compiled.result_unnamed]
  cases hpool : candidates.filter h.document.isElement with
  | nil =>
    have hnone := Compiled.result_subset (h.scope none) _ [] hfits
    rw [List.subset_nil.mp hnone]
    exact .ok he' rfl rfl
  | cons first rest =>
    rw [hpool] at helem
    refine (beginQuery_follows he' hknown first).bind_ok (fun _ => liftRun_adds _)
      fun hgrows he' hadapter => ?_
    subst hadapter
    exact execute_follows he' hforest (Compiled.Fits.mono hgrows.keeps _ hfits) none helem

lemma matchesElement_adds (h : Host) (n : NodeId) (query : String) :
    (ledger A r settings).Adds (matchesElement h n query) := by
  refine (compile_adds query).bind fun selector => ?_
  split
  · exact (beginQuery_adds h _).bind fun _ => liftRun_adds _
  · exact .pure _

lemma matchesElement_follows (hr : r.Steady) (he : e.Sound A r settings N)
    (hforest : h.document.IsForest) (hknown : h.Known A) (n : NodeId) (query : String) :
    (ledger A r settings).Follows N e (matchesElement h n query e)
      (h.matchesElement r n query) fun _ a b => a = b := by
  unfold matchesElement Host.matchesElement
  refine (compile_follows hr he query).bind (fun _ => ?_)
    fun {selector plain _ _} _ he' hselector => ?_
  · split
    · exact (beginQuery_adds h _).bind fun _ => liftRun_adds _
    · exact .pure _
  obtain ⟨rfl, hfits⟩ := hselector
  rw [Compiled.result_unnamed]
  by_cases helem : h.document.isElement n = true
  · rw [if_pos helem, helem, Bool.true_and]
    refine (beginQuery_follows he' hknown n).bind_ok (fun _ => liftRun_adds _)
      fun hgrows he' hadapter => ?_
    subst hadapter
    refine liftRun_follows he' (Compiled.anyMatch_gives _ (h.scope none) hforest
      (Compiled.Fits.mono hgrows.keeps _ hfits) [n] fun m hm => ?_)
    rwa [List.mem_singleton.mp hm]
  · rw [if_neg helem, Bool.not_eq_true _ |>.mp helem, Bool.false_and]
    exact .ok he' rfl rfl

lemma tokenize_adds (query : String) : (ledger A r settings).Adds (tokenize query) :=
  liftCompile_adds (Compile.tokenize_adds query)

lemma Sound.clearCaches (he : e.Sound A r settings N) :
    e.clearCaches.Sound A r settings N where
  registry := he.registry
  settings := he.settings
  caches := he.caches.clear
  memo := Memo.valid_reset _
  forgotten := Memo.forgotten_reset _
  adapter _ h := nomatch h

end Engine

end TreeQuery
