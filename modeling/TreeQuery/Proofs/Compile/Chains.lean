import TreeQuery.Proofs.Tree.Forest
import TreeQuery.Proofs.Compile.Recipes
import TreeQuery.Proofs.Compile.Drafts

/-!
# Chains of elements

A clause without set matchers asks for a chain of elements, one for each compound, in which every
combinator leads from one element to the next.
-/

namespace TreeQuery

/-- Whether a combinator relates `e` on its left to `n` on its right. -/
def Document.Related (d : Document) : Combinator → NodeId → NodeId → Prop
  | .child, e, n => d.parentElement n = some e
  | .descendant, e, n => Relation.TransGen (Linked d.parentElement) n e
  | .adjacent, e, n => d.IsClosestBefore e n
  | .sibling, e, n => d.isElement e = true ∧ d.IsBefore e n

lemma Document.Related.isElement {d : Document} {c : Combinator} {e n : NodeId}
    (h : d.Related c e n) : d.isElement e = true := by
  cases c with
  | child => exact (Option.filter_eq_some_iff.mp h).2
  | descendant =>
    cases h with
    | single hs => exact (Option.filter_eq_some_iff.mp hs).2
    | tail _ hs => exact (Option.filter_eq_some_iff.mp hs).2
  | adjacent =>
    obtain ⟨_, _, _, _, _, helem, _⟩ := h
    exact helem
  | sibling => exact h.1

/-- Whether a leading combinator relates the context to `n`. -/
def Scope.LedBy (s : Scope) (c : Combinator) (n : NodeId) : Prop :=
  ∃ context, s.context = some context ∧
    match c with
    | .child => s.document.parent n = some context
    | .descendant => Relation.TransGen (Linked s.document.parent) n context
    | .adjacent => s.document.IsClosestBefore context n
    | .sibling => s.document.isElement context = true ∧ s.document.IsBefore context n

/-- Whether the simple filter of a token accepts an element. -/
def Token.Accepts [PatternLibrary] (t : Token) (s : Scope) (n : NodeId) : Prop :=
  ∃ test, Plain.simple .standard Registry.standard.plain t.value = .ok (.test test) ∧
    test.holds (fun _ => false) s n = true

lemma Token.accepts_iff [PatternLibrary] {t : Token} {test : Test} {s : Scope} {n : NodeId}
    (ht : Plain.simple .standard Registry.standard.plain t.value = .ok (.test test)) :
    t.Accepts s n ↔ test.holds (fun _ => false) s n = true := by
  constructor
  · rintro ⟨test', htest', hholds⟩
    obtain rfl := Matcher.test.inj (Except.ok.inj (ht.symm.trans htest'))
    exact hholds
  · exact fun hholds => ⟨test, ht, hholds⟩

/-- Whether a row of elements answers tokens from left to right. A simple token asks the element in
front, and a combinator goes on to the next one. -/
inductive Clause.Chain [PatternLibrary] (s : Scope) : List Token → List NodeId → Prop where
  | last {e : NodeId} : s.document.isElement e = true → Chain s [] [e]
  | simple {t : Token} {rest : List Token} {e : NodeId} {es : List NodeId} :
      t.combinator? = none → t.Accepts s e → Chain s rest (e :: es) → Chain s (t :: rest) (e :: es)
  | step {t : Token} {c : Combinator} {rest : List Token} {e e' : NodeId} {es : List NodeId} :
      t.combinator? = some c → s.document.isElement e = true → s.document.Related c e e' →
      Chain s rest (e' :: es) → Chain s (t :: rest) (e :: e' :: es)

/-- Whether a clause finds an element: a chain for its compounds ends there, and a combinator in
front of them relates the context to the first element of the chain. -/
def Clause.Finds [PatternLibrary] (clause : Clause) (s : Scope) (n : NodeId) : Prop :=
  ∃ e es, (e :: es).getLast? = some n ∧
    match clause.head?.bind Token.combinator? with
    | some c => s.LedBy c e ∧ Clause.Chain s clause.tail (e :: es)
    | none => Clause.Chain s clause (e :: es)

/-- Whether no token of a clause has a set matcher. -/
def Clause.IsElementOnly [PatternLibrary] (clause : Clause) : Prop :=
  ∀ t ∈ clause, ∀ m, Plain.simple .standard Registry.standard.plain t.value ≠ .ok (.set m)

namespace Document.IsForest

variable {d : Document} (h : d.IsForest)
include h

lemma finds_iff (direction : Direction) (accepts : NodeId → Bool) (n : NodeId) :
    d.finds direction accepts (d.stepTo direction n) = true ↔
      ∃ e, Relation.TransGen (Linked (d.stepTo direction)) n e ∧ accepts e = true := by
  rw [finds]
  cases hnext : d.stepTo direction n with
  | none =>
    have hstuck : ∀ e, ¬ Relation.TransGen (Linked (d.stepTo direction)) n e := by
      intro e he
      obtain ⟨k, hk, -⟩ := Relation.TransGen.head'_iff.mp he
      rw [Linked, hnext] at hk
      simp at hk
    simp [hstuck]
  | some k =>
    have hends := hnext ▸ h.ends_step direction n
    rw [seek_isSome_iff hends]
    have hstep : ∀ e, Relation.TransGen (Linked (d.stepTo direction)) n e ↔
        Relation.ReflTransGen (Linked (d.stepTo direction)) k e := by
      intro e
      rw [Relation.TransGen.head'_iff]
      constructor
      · rintro ⟨j, hj, he⟩
        obtain rfl := Option.some.inj (hnext.symm.trans hj)
        exact he
      · exact fun he => ⟨k, hnext, he⟩
    simp only [hstep]

lemma relates_iff (c : Combinator) (accepts : NodeId → Bool) (n : NodeId) :
    d.relates c accepts n = true ↔ ∃ e, d.Related c e n ∧ accepts e = true := by
  cases c with
  | child => exact Option.any_eq_true _ _
  | descendant => exact h.finds_iff .parent accepts n
  | adjacent =>
    simp only [Related, ← h.previousElement_eq_some_iff]
    exact Option.any_eq_true _ _
  | sibling =>
    simp only [Related, ← h.transGen_previousElement_iff]
    exact h.finds_iff .previousSibling accepts n

lemma leads_iff {s : Scope} (hs : s.document = d) (c : Combinator) (n : NodeId) :
    s.leads c n = true ↔ s.LedBy c n := by
  subst hs
  unfold Scope.leads Scope.LedBy
  cases s.context with
  | none => simp
  | some context =>
    simp only [Option.some.injEq, exists_eq_left']
    cases c with
    | child => exact beq_iff_eq
    | descendant => exact h.contains_iff context n
    | adjacent => exact beq_iff_eq.trans h.previousElement_eq_some_iff
    | sibling =>
      have hfinds := h.finds_iff .previousSibling (· == context) n
      simp only [beq_iff_eq, exists_eq_right] at hfinds
      exact hfinds.trans h.transGen_previousElement_iff

end Document.IsForest

lemma holdsAll_append (ts us : List Test) (previous : NodeId → Bool) (s : Scope) (n : NodeId) :
    holdsAll (ts ++ us) previous s n = (holdsAll ts previous s n && holdsAll us previous s n) := by
  induction ts with
  | nil => simp [holdsAll]
  | cons t rest ih => rw [List.cons_append, holdsAll, holdsAll, ih, Bool.and_assoc]

lemma conjunction_holds (ts : List Test) (previous : NodeId → Bool) (s : Scope) (n : NodeId) :
    (Test.conjunction ts).holds previous s n = holdsAll ts previous s n := by
  match ts with
  | [] => rfl
  | [t] => simp [Test.conjunction, holdsAll]
  | _ :: _ :: _ => rfl

lemma holdsAny_iff {ts : List Test} {previous : NodeId → Bool} {s : Scope} {n : NodeId} :
    holdsAny ts previous s n = true ↔ ∃ t ∈ ts, t.holds previous s n = true := by
  induction ts with
  | nil => simp [holdsAny]
  | cons t rest ih => simp [holdsAny, ih]

lemma disjunction_holds (ts : List Test) (previous : NodeId → Bool) (s : Scope) (n : NodeId) :
    (Test.disjunction ts).holds previous s n = holdsAny ts previous s n := by
  match ts with
  | [] => rfl
  | [t] => simp [Test.disjunction, holdsAny]
  | _ :: _ :: _ => rfl

namespace Clause

variable [PatternLibrary] {s : Scope} {t : Token} {rest : List Token}

lemma chain_nil_iff {es : List NodeId} :
    Chain s [] es ↔ ∃ e, es = [e] ∧ s.document.isElement e = true := by
  constructor
  · intro h
    cases h with
    | last helem => exact ⟨_, rfl, helem⟩
  · rintro ⟨e, rfl, helem⟩
    exact .last helem

lemma chain_simple_iff {e : NodeId} {es : List NodeId} (ht : t.combinator? = none) :
    Chain s (t :: rest) (e :: es) ↔ t.Accepts s e ∧ Chain s rest (e :: es) := by
  constructor
  · intro h
    cases h with
    | simple _ haccepts hrest => exact ⟨haccepts, hrest⟩
    | step hc _ _ _ => simp [ht] at hc
  · exact fun h => .simple ht h.1 h.2

lemma chain_step_iff {c : Combinator} {e : NodeId} {es : List NodeId}
    (ht : t.combinator? = some c) :
    Chain s (t :: rest) (e :: es) ↔ s.document.isElement e = true ∧
      ∃ e' es', es = e' :: es' ∧ s.document.Related c e e' ∧ Chain s rest (e' :: es') := by
  constructor
  · intro h
    cases h with
    | simple hnone _ _ => simp [ht] at hnone
    | step hc helem hrelated hrest =>
      obtain rfl := Option.some.inj (ht.symm.trans hc)
      exact ⟨helem, _, _, rfl, hrelated, hrest⟩
  · rintro ⟨helem, e', es', rfl, hrelated, hrest⟩
    exact .step ht helem hrelated hrest

end Clause

lemma Plain.combinator?_eq_some_iff {t : Token} {c : Combinator} :
    t.combinator? = some c ↔ t.value = .combinator c := by
  unfold Token.combinator?
  split <;> simp_all

end TreeQuery
