import TreeQuery.Matching.Run
import TreeQuery.Engine.Settings
import TreeQuery.Engine.Seed

/-!
# The engine

An engine answers queries about the documents of hosts. It keeps what it compiled, what it
remembers from matching, and what the host of the last document advertised; none of it changes an
answer.
-/

namespace TreeQuery

structure QueryStats where
  queries : Nat
  quickHits : Nat
  nativeHits : Nat
  nativeMisses : Nat
  narrowed : Nat
  fullScans : Nat
  deriving Repr, DecidableEq, Inhabited

def QueryStats.zero : QueryStats := ⟨0, 0, 0, 0, 0, 0⟩

/-- What a host advertised for the tree under a root. -/
structure Adapter where
  identity : Nat
  root : NodeId
  features : Features
  xml : Bool
  deriving Repr, DecidableEq, Inhabited

structure Engine where
  settings : Settings
  registry : Registry
  caches : CompileCaches
  memo : Memo
  adapter : Option Adapter
  stats : QueryStats

/-- Whether a query can start at a node: an element, or the top of a tree that is not a text. -/
def Document.isQueryRoot (d : Document) (n : NodeId) : Bool :=
  d.isElement n || ((d.parent n).isNone && !d.isText n)

namespace Engine

variable [PatternLibrary]

/-- A computation on an engine that may fail; what it did to the engine before stays done. -/
abbrev Action (α : Type) := ExceptT SelectorError (StateM Engine) α

def new (settings : Settings) : Except SelectorError Engine := do
  let settings ← settings.checked
  return {
    settings
    registry := .standard
    caches := .empty settings.cache
    memo := .empty settings.execution.walkCache settings.execution.walkTableLimit
    adapter := none
    stats := .zero }

def liftCompile {α : Type} (action : Compile α) : Action α := fun e =>
  let (result, caches) := action e.caches
  (result, { e with caches })

def liftRun {α : Type} (action : Run α) : Action α := fun e =>
  let (result, memo) := action e.memo
  (.ok result, { e with memo })

def count (change : QueryStats → QueryStats) : Action Unit :=
  modify fun e => { e with stats := change e.stats }

/-- Reads a selector list. The same text gives the very same list while it is cached. -/
def tokenize (query : String) : Action (Issued SelectorList) :=
  liftCompile (Compile.tokenize query)

/-- Compiles a selector. The same text gives the very same selector while it is cached. -/
def compile (query : String) : Action (Issued Compiled) := do
  let e ← get
  liftCompile (Compile.text e.registry query)

def compileMatcher (query : String) : Action Matcher := do
  return (← compile query).value.toMatcher

def unread (e : Engine) (query : String) : Nat := e.caches.unread query

/-- The adapter for the tree under a root. A change of document or root makes the engine forget what
it remembers. -/
def adapt (h : Host) (root : NodeId) : Action Adapter := do
  let fresh : Adapter := ⟨h.identity, root, h.features, h.xml⟩
  match (← get).adapter with
  | some a =>
    if a.identity = h.identity ∧ a.root = root then return a
    else renew fresh
  | none => renew fresh
where
  renew (fresh : Adapter) : Action Adapter := do
    modify fun e => { e with adapter := some fresh, memo := e.memo.reset }
    return fresh

/-- Starts a query on the tree that a node stands in. -/
def beginQuery (h : Host) (n : NodeId) : Action Adapter := do
  let adapter ← adapt h (h.document.rootOf n)
  modify fun e => { e with memo := e.memo.beginQuery }
  return adapter

/-- Runs a compiled selector, from the seeds of an index where that is possible. -/
def answer (h : Host) (selector : Compiled) (context : NodeId) (adapter : Adapter) :
    Action (List NodeId) := do
  let execution := (← get).settings.execution
  let scope : Scope := ⟨h, some context, adapter.xml⟩
  let plan :=
    if execution.fastPath && execution.seedNarrowing && selector.isElementOnly then
      selector.list.seedPlan adapter.features
    else none
  match plan with
  | some plan => do
    count fun s => { s with narrowed := s.narrowed + 1 }
    let seeds := plan.seed.fetch h context
    if plan.isTrivial || seeds.isEmpty then return seeds
    let reduced ← compile plan.reduced
    liftRun (reduced.value.execute scope seeds)
  | none => do
    count fun s => { s with fullScans := s.fullScans + 1 }
    let d := h.document
    liftRun (selector.execute scope (d.descendantElements (selector.searchRoot d context)))

/-- The host's index or the host itself answers, where the settings and the adapter allow it. -/
def shortcut (h : Host) (query : String) (context : NodeId) (adapter : Adapter) :
    Action (Option (List NodeId)) := do
  let execution := (← get).settings.execution
  let quick := if execution.fastPath then h.quick adapter.features query context else none
  match quick with
  | some found => do
    count fun s => { s with quickHits := s.quickHits + 1 }
    return some found
  | none =>
    if execution.nativeSelect && adapter.features.nativeSelect then
      match h.native query context with
      | some found => do
        count fun s => { s with nativeHits := s.nativeHits + 1 }
        return some found
      | none => do
        count fun s => { s with nativeMisses := s.nativeMisses + 1 }
        return none
    else return none

/-- The elements under a context that a query selects, in document order. -/
def select (h : Host) (query : String) (context : NodeId) : Action (List NodeId) := do
  if h.document.isQueryRoot context then
    count fun s => { s with queries := s.queries + 1 }
    let adapter ← beginQuery h context
    match ← shortcut h query context adapter with
    | some found => return found
    | none => do
      let selector ← compile query
      answer h selector.value context adapter
  else return []

/-- The elements under a context that a compiled selector selects, in document order. -/
def selectCompiled (h : Host) (selector : Compiled) (context : NodeId) : Action (List NodeId) := do
  if h.document.isQueryRoot context then
    count fun s => { s with queries := s.queries + 1 }
    let adapter ← beginQuery h context
    answer h selector context adapter
  else return []

/-- The candidates that a query selects, in their order. Candidates that are not elements are left
out. -/
def filterCandidates (h : Host) (query : String) (candidates : List NodeId) :
    Action (List NodeId) := do
  let selector ← compile query
  match candidates.filter h.document.isElement with
  | [] => return []
  | first :: rest => do
    let adapter ← beginQuery h first
    liftRun (selector.value.execute ⟨h, none, adapter.xml⟩ (first :: rest))

def matchesElement (h : Host) (n : NodeId) (query : String) : Action Bool := do
  let selector ← compile query
  if h.document.isElement n then
    let adapter ← beginQuery h n
    liftRun (selector.value.anyMatch ⟨h, none, adapter.xml⟩ [n])
  else return false

/-- Registers a pseudo-class. Selectors compiled before are forgotten. -/
def register (e : Engine) (name : String) (pseudo : Pseudo) : Engine :=
  { e with registry := e.registry.register name pseudo, caches := e.caches.clearCompiled }

/-- Forgets all texts and the last document. -/
def clearCaches (e : Engine) : Engine :=
  { e with caches := e.caches.clear, adapter := none, memo := e.memo.reset }

end Engine

end TreeQuery
