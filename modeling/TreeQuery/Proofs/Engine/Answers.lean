import TreeQuery.Engine.Select
import TreeQuery.Proofs.Engine.SeedPlans
import TreeQuery.Proofs.Compile.Faithful
import TreeQuery.Proofs.Matching.Soundness

/-!
# What engines answer

The answers to queries as functions of the registry, the settings, the host and the query alone,
without caches, memo, adapter and counts.
-/

namespace TreeQuery

namespace Host

/-- Whether all that the indexes find are elements. -/
def FindsElements (h : Host) : Prop :=
  ∀ (seed : Seed) (context : NodeId), seed.IsAsked h.features →
    ∀ n ∈ seed.fetch h context, h.document.isElement n = true

/-- The adapter for the tree under a root. -/
def adapterAt (h : Host) (root : NodeId) : Adapter :=
  ⟨h.identity, root, h.features, h.xml⟩

@[simp] lemma features_adapterAt (h : Host) (root : NodeId) :
    (h.adapterAt root).features = h.features :=
  rfl

@[simp] lemma xml_adapterAt (h : Host) (root : NodeId) : (h.adapterAt root).xml = h.xml :=
  rfl

def scope (h : Host) (context : Option NodeId) : Scope := ⟨h, context, h.xml⟩

/-- The seed plan that the settings allow for a compiled selector. -/
def seedPlan (h : Host) (x : ExecutionSettings) (c : Compiled) : Option SeedPlan :=
  if x.fastPath && x.seedNarrowing && c.isElementOnly then c.list.seedPlan h.features else none

/-- What a compiled selector finds without an index. -/
def scan (h : Host) (c : Compiled) (context : NodeId) : List NodeId :=
  c.result (h.scope (some context))
    (h.document.descendantElements (c.searchRoot h.document context))

lemma isAsked_of_seedPlan {h : Host} {x : ExecutionSettings} {c : Compiled} {plan : SeedPlan}
    (hplan : h.seedPlan x c = some plan) : plan.seed.IsAsked h.features := by
  unfold seedPlan at hplan
  split at hplan
  · exact SelectorList.isAsked_of_seedPlan hplan
  · simp at hplan

lemma seedPlan_unnamed (h : Host) (x : ExecutionSettings) (c : Compiled) :
    h.seedPlan x c.unnamed = h.seedPlan x c := by
  simp [seedPlan]

lemma scan_unnamed (h : Host) (c : Compiled) (context : NodeId) :
    h.scan c.unnamed context = h.scan c context := by
  rw [scan, scan, Compiled.result_unnamed, Compiled.searchRoot_unnamed]

variable [PatternLibrary]

/-- What a compiled selector finds from the seeds of a plan. -/
def narrowTo (h : Host) (r : Registry) (plan : SeedPlan) (context : NodeId) :
    Except SelectorError (List NodeId) :=
  let seeds := plan.seed.fetch h context
  if plan.isTrivial || seeds.isEmpty then .ok seeds
  else do
    let reduced ← r.plain plan.reduced
    return reduced.result (h.scope (some context)) seeds

/-- What a compiled selector selects under a context. -/
def answer (h : Host) (r : Registry) (x : ExecutionSettings) (c : Compiled) (context : NodeId) :
    Except SelectorError (List NodeId) :=
  match h.seedPlan x c with
  | some plan => h.narrowTo r plan context
  | none => .ok (h.scan c context)

/-- What the host's index or the host itself answers. -/
def shortcut (h : Host) (x : ExecutionSettings) (query : String) (context : NodeId) :
    Option (List NodeId) :=
  (if x.fastPath then h.quick h.features query context else none).or
    (if x.nativeSelect && h.features.nativeSelect then h.native query context else none)

/-- What a query selects under a context. -/
def select (h : Host) (r : Registry) (x : ExecutionSettings) (query : String) (context : NodeId) :
    Except SelectorError (List NodeId) :=
  if h.document.isQueryRoot context then
    match h.shortcut x query context with
    | some found => .ok found
    | none => do h.answer r x (← r.plain query) context
  else .ok []

def filterCandidates (h : Host) (r : Registry) (query : String) (candidates : List NodeId) :
    Except SelectorError (List NodeId) := do
  let c ← r.plain query
  return c.result (h.scope none) (candidates.filter h.document.isElement)

def matchesElement (h : Host) (r : Registry) (n : NodeId) (query : String) :
    Except SelectorError Bool := do
  let c ← r.plain query
  return h.document.isElement n && !(c.result (h.scope none) [n]).isEmpty

lemma answer_unnamed (h : Host) (r : Registry) (x : ExecutionSettings) (c : Compiled)
    (context : NodeId) : h.answer r x c.unnamed context = h.answer r x c context := by
  rw [answer, answer, seedPlan_unnamed, scan_unnamed]

end Host

/-- What hosts advertise under each identity: their features, and how they compare tags. -/
abbrev Adverts := Nat → Option (Features × Bool)

/-- Whether a host advertises what is known under its identity. -/
def Host.Known (A : Adverts) (h : Host) : Prop := A h.identity = some (h.features, h.xml)

namespace Engine

lemma get_bind {α : Type} (g : Engine → Action α) (e : Engine) : ((get : Action Engine) >>= g) e = g e e :=
  rfl

variable [PatternLibrary]

/-- What holds of an engine that has answered any queries about hosts that are known. -/
structure Sound (A : Adverts) (r : Registry) (settings : Settings) (N : Naming) (e : Engine) :
    Prop where
  registry : e.registry = r
  settings : e.settings = settings
  caches : e.caches.Coherent r N
  memo : e.memo.Valid
  forgotten : e.memo.Forgotten
  adapter : ∀ a, e.adapter = some a → A a.identity = some (a.features, a.xml)

def ledger (A : Adverts) (r : Registry) (settings : Settings) : Ledger Engine :=
  ⟨fun e => e.caches.named, Sound A r settings⟩

variable {A : Adverts} {r : Registry} {settings : Settings} {N : Naming} {e : Engine}
  {α β : Type}

lemma count_adds (change : QueryStats → QueryStats) :
    (ledger A r settings).Adds (count change) := fun _ => Nat.le_refl _

lemma liftRun_adds (action : Run α) : (ledger A r settings).Adds (liftRun action) :=
  fun _ => Nat.le_refl _

lemma liftCompile_adds {action : Compile α} (h : (CompileCaches.ledger r).Adds action) :
    (ledger A r settings).Adds (liftCompile action) := fun e => h e.caches

lemma liftCompile_follows {action : Compile α} {plain : Except SelectorError β}
    {rel : Naming → α → β → Prop} (he : e.Sound A r settings N)
    (h : (CompileCaches.ledger r).Follows N e.caches (action e.caches) plain rel) :
    (ledger A r settings).Follows N e (liftCompile action e) plain rel := by
  intro hlt
  obtain ⟨N', hgrows, hcoherent, hagree⟩ := h hlt
  exact ⟨N', hgrows, ⟨he.registry, he.settings, hcoherent, he.memo, he.forgotten, he.adapter⟩, hagree⟩

lemma liftRun_follows {bound : Nat} {action : Run α} {value : α} (he : e.Sound A r settings N)
    (h : Run.GivesApart N bound action value) :
    (ledger A r settings).Follows N e (liftRun action e) (.ok value) fun _ a b => a = b := by
  obtain ⟨hvalue, -, hvalid, hforgotten⟩ := h e.memo he.memo
  exact .ok ⟨he.registry, he.settings, he.caches, hvalid, hforgotten, he.adapter⟩ rfl hvalue

lemma count_follows (he : e.Sound A r settings N) (change : QueryStats → QueryStats) :
    (ledger A r settings).Follows N e (count change e) (.ok ()) fun _ _ _ => True :=
  .ok ⟨he.registry, he.settings, he.caches, he.memo, he.forgotten, he.adapter⟩ rfl trivial

lemma compile_adds (query : String) : (ledger A r settings).Adds (compile query) := by
  intro e
  have hadds : (CompileCaches.ledger r).Adds (Compile.text e.registry query) :=
    Compile.textWithin_adds e.registry _ query
  exact liftCompile_adds hadds e

lemma compile_follows (hr : r.Steady) (he : e.Sound A r settings N) (query : String) :
    (ledger A r settings).Follows N e (compile query e) (r.plain query) Compile.IssuedFollows := by
  rw [compile, get_bind, he.registry]
  exact liftCompile_follows he (Compile.text_follows hr he.caches query)

lemma tokenize_follows (he : e.Sound A r settings N) (query : String) :
    (ledger A r settings).Follows N e (tokenize query e) (SelectorList.parse query)
      fun _ list list' => list' = list.value :=
  liftCompile_follows he (Compile.tokenize_follows he.caches query)

end Engine

end TreeQuery
