import TreeQuery.Cache
import TreeQuery.Selector.Scan
import TreeQuery.Compile.Defaults

/-!
# Compiling selectors

A clause is compiled token by token from left to right. The tests of a compound are gathered; a
combinator wraps everything gathered so far into one test of the element it leads to; a set matcher
turns the rest of its compound into narrowing steps and the clause into a plan.

Selector lists that were read, selectors that were compiled and class patterns are cached by their
texts. The caches are a shortcut only, but what is taken from one is the very thing that was put
in: `Issued.serial` tells one reading or compilation from another.
-/

namespace TreeQuery

/-- A value with the number of the computation that made it. -/
structure Issued (α : Type) where
  value : α
  serial : Nat
  deriving Inhabited

structure CacheCapacities where
  tokens : Nat
  compiled : Nat
  classes : Nat
  deriving Repr, DecidableEq, Inhabited

structure CompileCaches where
  tokens : BoundedCache String (Issued SelectorList)
  compiled : BoundedCache String (Issued Compiled)
  classes : BoundedCache String (Issued ClassPattern)
  /-- The number of names given to walks and plans so far. -/
  named : Nat
  /-- The number of values issued so far. -/
  issued : Nat

namespace CompileCaches

def empty (capacities : CacheCapacities) : CompileCaches :=
  ⟨.empty capacities.tokens, .empty capacities.compiled, .empty capacities.classes, 0, 0⟩

def clear (c : CompileCaches) : CompileCaches :=
  { c with tokens := c.tokens.clear, compiled := c.compiled.clear, classes := c.classes.clear }

/-- Forgets compiled selectors, which hold the pseudo-classes they were compiled with. -/
def clearCompiled (c : CompileCaches) : CompileCaches :=
  { c with compiled := c.compiled.clear }

/-- The number of bytes at the end of a text that cannot be read. A text that was read before has
none. -/
def unread (c : CompileCaches) (text : String) : Nat :=
  if c.tokens.contains text then 0 else SelectorList.unread text

end CompileCaches

/-- The library that builds patterns. It may refuse one, and then it tells why. -/
class PatternLibrary where
  refusal? : ClassPattern → Option String

/-- A library that allows a pattern so many bytes. It takes 32 bytes for each byte of the word, and
as much for each of the 19 other parts of a pattern. -/
@[reducible] def PatternLibrary.sized (limit : Nat) : PatternLibrary where
  refusal? pattern :=
    if limit < 32 * (pattern.word.utf8ByteSize + 19) then
      some ("Compiled regex exceeds size limit of " ++ toString limit ++ " bytes.")
    else none

/-- The library with the limit that it has by default, ten megabytes. -/
@[reducible] def PatternLibrary.standard : PatternLibrary := .sized (10 * 1024 * 1024)

/-- A computation that may fail; what it did to the caches before stays done. -/
abbrev Compile (α : Type) := ExceptT SelectorError (StateM CompileCaches) α

variable [PatternLibrary]

/-- The pattern for one word of a class attribute, if the library builds it. -/
def ClassPattern.build (word : String) : Except SelectorError ClassPattern :=
  match PatternLibrary.refusal? ⟨word⟩ with
  | some reason => .error (.invalidPattern reason)
  | none => .ok ⟨word⟩

namespace Compile

/-- A fresh name for a walk or a plan: their number so far, in 32 bits. -/
def freshId : Compile MatcherId :=
  modifyGet fun c => (.ofNat (c.named + 1), { c with named := c.named + 1 })

def issue {α : Type} (value : α) : Compile (Issued α) :=
  modifyGet fun c => (⟨value, c.issued⟩, { c with issued := c.issued + 1 })

/-- Reads a selector list, or takes it from the cache. Faults are not cached. -/
def tokenize (text : String) : Compile (Issued SelectorList) := do
  let found ← modifyGet fun c =>
    let (found, tokens) := c.tokens.get text
    (found, { c with tokens })
  match found with
  | some list => return list
  | none =>
    let list ← issue (← SelectorList.parse text)
    modify fun c => { c with tokens := c.tokens.insert text list }
    return list

/-- Builds the pattern for one word of a class attribute, or takes it from the cache. What was
refused is not cached. -/
def classPattern (word : String) : Compile (Issued ClassPattern) := do
  let found ← modifyGet fun c =>
    let (found, classes) := c.classes.get word
    (found, { c with classes })
  match found with
  | some pattern => return pattern
  | none =>
    let pattern ← issue (← ClassPattern.build word)
    modify fun c => { c with classes := c.classes.insert word pattern }
    return pattern

/-- Follows a recipe, with `nested` to compile the selectors it asks for. -/
def follow (nested : String → Compile Compiled) : Recipe → Compile Matcher
  | .ready matcher => return matcher
  | .reject e => throw e
  | .compile text next => do follow nested (next (← nested text))

/-- The matcher of a token that is not a combinator. -/
def simple (registry : Registry) (nested : String → Compile Compiled) :
    TokenValue → Compile Matcher
  | .tag name => return .test (.check fun s n => s.hasTag name n)
  | .id name => return .test (.check fun s n => s.hasId name n)
  | .className word => do
    let pattern ← classPattern word
    return .test (.check fun s n => s.hasClass pattern.value n)
  | .attribute test => return .test (.check fun s n => s.passes test n)
  | .structural p => return .test (structuralTest p)
  | .pseudo call =>
    match registry.get? call.name with
    | some (.predicate accepts) => return .test (.check accepts)
    | some (.factory build) => follow nested (build call.argument)
    | none => throw (.unsupportedPseudo call.name)
  | .combinator c => throw (.unrecognized c.symbol)
where
  /-- The first, last and only positions are settled by a look at the siblings. An element without
  a parent stands at no position. -/
  structuralTest (p : StructuralPosition) : Test :=
    let check (accepts : Scope → NodeId → Bool) : Test :=
      .check fun s n => (s.document.parent n).isSome && accepts s n
    match p.position with
    | .first => check fun s n => s.isFirst p.ofType n
    | .last => check fun s n => s.isLast p.ofType n
    | .only => check fun s n => s.isFirst p.ofType n && s.isLast p.ofType n
    | .nth | .nthLast => .ranked p

/-- A clause that is half compiled: the finished stages, the tests gathered since, and the narrowing
steps once the compound has a set matcher. -/
structure Draft where
  plan : MatcherId
  stages : List Stage
  tests : List Test
  narrowers : Option (List Matcher)

namespace Draft

def start (plan : MatcherId) : Draft := ⟨plan, [], [], none⟩

/-- Ends a stage at a combinator. The next one starts from the elements it found. -/
def endStage (d : Draft) : Draft :=
  match d.narrowers with
  | none => d
  | some narrowers =>
    { d with
      stages := d.stages ++ [.mk (.conjunction d.tests) narrowers]
      tests := [.anchored d.plan d.stages.length]
      narrowers := none }

/-- Adds a combinator at the start of a clause, where it leads to the context. -/
def lead (d : Draft) (c : Combinator) : Draft :=
  { d with tests := [.check fun s n => s.leads c n] }

/-- Wraps all tests so far into one test of the element that a combinator leads to. -/
def relate (d : Draft) (c : Combinator) (id : MatcherId) : Draft :=
  { d with tests := [.related c id (.conjunction d.tests)] }

def addCombinator (d : Draft) (c : Combinator) : Compile Draft := do
  let d := d.endStage
  if d.tests.isEmpty then return d.lead c else return d.relate c (← freshId)

/-- Adds a simple test or set matcher. After a set matcher everything narrows. -/
def addMatcher (d : Draft) (m : Matcher) : Draft :=
  match d.narrowers, m with
  | some narrowers, m => { d with narrowers := some (narrowers ++ [m]) }
  | none, .test t => { d with tests := d.tests ++ [t] }
  | none, .set s => { d with narrowers := some [.set s] }

/-- The test of a clause without set matchers, or the plan of one with them. -/
def finish (d : Draft) (siblingLed : Bool) : Test ⊕ Plan :=
  let test := Test.conjunction d.tests
  match d.stages, d.narrowers with
  | [], none => .inl test
  | stages, narrowers => .inr (.mk d.plan stages (.mk test (narrowers.getD [])) siblingLed)

end Draft

def addToken (registry : Registry) (nested : String → Compile Compiled) (draft : Draft)
    (token : Token) : Compile Draft :=
  match token.value with
  | .combinator c => draft.addCombinator c
  | value => do
    let matcher ← simple registry nested value
    return draft.addMatcher matcher

def clause (registry : Registry) (nested : String → Compile Compiled) (clause : Clause) :
    Compile (Test ⊕ Plan) := do
  let plan ← freshId
  let draft ← clause.foldlM (addToken registry nested) (.start plan)
  return draft.finish clause.leadsWithSibling

/-- Compiles clauses in order and sorts them into tests and plans. -/
def clauses (registry : Registry) (nested : String → Compile Compiled) :
    List Clause → Compile (List Test × List Plan)
  | [] => return ([], [])
  | c :: rest => do
    let compiled ← clause registry nested c
    let (tests, plans) ← clauses registry nested rest
    match compiled with
    | .inl test => return (test :: tests, plans)
    | .inr plan => return (tests, plan :: plans)

def selectorList (registry : Registry) (nested : String → Compile Compiled) (list : SelectorList) :
    Compile Compiled := do
  let (tests, plans) ← clauses registry nested list.clauses
  return .mk list (if tests.isEmpty then none else some (.disjunction tests)) plans

/-- Compiles a text, or takes it from the cache. A selector within another is shorter than the
other, so `depth` need not exceed the length of the text. -/
def textWithin (registry : Registry) : Nat → String → Compile (Issued Compiled)
  | 0, text => throw (.unrecognized text)
  | depth + 1, text => do
    let found ← modifyGet fun c =>
      let (found, compiled) := c.compiled.get text
      (found, { c with compiled })
    match found with
    | some selector => return selector
    | none =>
      let list ← tokenize text
      let nested (inner : String) : Compile Compiled := do
        return (← textWithin registry depth inner).value
      let selector ← issue (← selectorList registry nested list.value)
      modify fun c => { c with compiled := c.compiled.insert text selector }
      return selector

def text (registry : Registry) (text : String) : Compile (Issued Compiled) :=
  textWithin registry (text.length + 1) text

end Compile

end TreeQuery
