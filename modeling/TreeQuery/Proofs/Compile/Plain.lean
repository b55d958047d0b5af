import TreeQuery.Compile.Compiler
import TreeQuery.Proofs.Matching.Unnamed

/-!
# Compiling without caches and names

What a text compiles to, apart from the names that are given on the way and from what the caches
hold. Every walk and every plan is named zero.
-/

namespace TreeQuery

namespace ClassPattern

variable [PatternLibrary] {word : String}

lemma build_eq_ok_iff {pattern : ClassPattern} :
    build word = .ok pattern ↔ PatternLibrary.refusal? ⟨word⟩ = none ∧ pattern = ⟨word⟩ := by
  cases hrefusal : PatternLibrary.refusal? ⟨word⟩ <;> simp [build, hrefusal, eq_comm]

/-- A pattern that was built is the one for its word. -/
theorem eq_of_build {pattern : ClassPattern} (h : build word = .ok pattern) : pattern = ⟨word⟩ :=
  (build_eq_ok_iff.mp h).2

lemma eq_of_map_build {α : Type} {make : ClassPattern → α} {made : α}
    (h : (build word).map make = .ok made) : made = make ⟨word⟩ := by
  cases hbuild : build word with
  | error e =>
    rw [hbuild] at h
    exact nomatch h
  | ok pattern =>
    rw [hbuild, eq_of_build hbuild] at h
    exact (Except.ok.inj h).symm

end ClassPattern

namespace Plain

/-- What a computation that succeeds comes through. -/
theorem bind_eq_ok {α β : Type} {x : Except SelectorError α} {next : α → Except SelectorError β}
    {b : β} (h : x >>= next = .ok b) : ∃ a, x = .ok a ∧ next a = .ok b := by
  cases x with
  | error e => exact nomatch h
  | ok a => exact ⟨a, rfl, h⟩

def follow (nested : String → Except SelectorError Compiled) :
    Recipe → Except SelectorError Matcher
  | .ready matcher => .ok matcher
  | .reject e => .error e
  | .compile text next => do follow nested (next (← nested text))

variable [PatternLibrary]

/-- The matcher of a token that is not a combinator. -/
def simple (registry : Registry) (nested : String → Except SelectorError Compiled) :
    TokenValue → Except SelectorError Matcher
  | .tag name => .ok (.test (.check fun s n => s.hasTag name n))
  | .id name => .ok (.test (.check fun s n => s.hasId name n))
  | .className word =>
    (ClassPattern.build word).map fun pattern => .test (.check fun s n => s.hasClass pattern n)
  | .attribute test => .ok (.test (.check fun s n => s.passes test n))
  | .structural p => .ok (.test (Compile.simple.structuralTest p))
  | .pseudo call =>
    match registry.get? call.name with
    | some (.predicate accepts) => .ok (.test (.check accepts))
    | some (.factory build) => follow nested (build call.argument)
    | none => .error (.unsupportedPseudo call.name)
  | .combinator c => .error (.unrecognized c.symbol)

def addCombinator (d : Compile.Draft) (c : Combinator) : Compile.Draft :=
  let d := d.endStage
  if d.tests.isEmpty then d.lead c else d.relate c 0

def addToken (registry : Registry) (nested : String → Except SelectorError Compiled)
    (draft : Compile.Draft) (token : Token) : Except SelectorError Compile.Draft :=
  match token.value with
  | .combinator c => .ok (addCombinator draft c)
  | value => (simple registry nested value).map draft.addMatcher

def clause (registry : Registry) (nested : String → Except SelectorError Compiled)
    (clause : Clause) : Except SelectorError (Test ⊕ Plan) := do
  let draft ← clause.foldlM (addToken registry nested) (.start 0)
  return draft.finish clause.leadsWithSibling

/-- Sorts a compiled clause in front of the tests and plans of the clauses after it. -/
def sorted : Test ⊕ Plan → List Test × List Plan → List Test × List Plan
  | .inl test, (tests, plans) => (test :: tests, plans)
  | .inr plan, (tests, plans) => (tests, plan :: plans)

def clauses (registry : Registry) (nested : String → Except SelectorError Compiled) :
    List Clause → Except SelectorError (List Test × List Plan)
  | [] => .ok ([], [])
  | c :: rest => do return sorted (← clause registry nested c) (← clauses registry nested rest)

def selectorList (registry : Registry) (nested : String → Except SelectorError Compiled)
    (list : SelectorList) : Except SelectorError Compiled := do
  let (tests, plans) ← clauses registry nested list.clauses
  return .mk list (if tests.isEmpty then none else some (.disjunction tests)) plans

/-- Compiles a text whose selectors within selectors are nested less than `depth` deep. -/
def within (registry : Registry) : Nat → String → Except SelectorError Compiled
  | 0, text => .error (.unrecognized text)
  | depth + 1, text => do
    selectorList registry (within registry depth) (← SelectorList.parse text)

lemma addToken_combinator {registry : Registry}
    (nested : String → Except SelectorError Compiled) (d : Compile.Draft) {t : Token}
    {sign : Combinator} (h : t.value = .combinator sign) :
    addToken registry nested d t = .ok (addCombinator d sign) := by
  rw [addToken, h]

lemma addToken_simple {registry : Registry} (nested : String → Except SelectorError Compiled)
    (d : Compile.Draft) {t : Token} (h : ∀ sign, t.value ≠ .combinator sign) :
    addToken registry nested d t =
      (do return d.addMatcher (← simple registry nested t.value)) := by
  unfold addToken
  split
  · exact absurd ‹_› (h _)
  · cases simple registry nested t.value <;> rfl

end Plain

/-- What a text compiles to. -/
def Registry.plain [PatternLibrary] (registry : Registry) (text : String) :
    Except SelectorError Compiled :=
  Plain.within registry (text.length + 1) text

end TreeQuery
