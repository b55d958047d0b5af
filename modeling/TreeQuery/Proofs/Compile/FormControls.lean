import TreeQuery.Compile.Compiler
import TreeQuery.Proofs.Tree.Orderly
import TreeQuery.Proofs.Tree.Preorder

/-!
# Disabled form controls

A form control is disabled by its own attribute, an option by its group, and most controls by a
fieldset somewhere above them. The walk up from a control remembers through which child it came to
each fieldset, since a fieldset spares what is in its first legend. What one fieldset spares another
one further up or further down may still disable.
-/

namespace TreeQuery

namespace Document

/-- The first legend among the children of a node. -/
def firstLegend (d : Document) (f : NodeId) : Option NodeId :=
  (d.children f).find? fun c => d.isTagged c "legend"

/-- Whether a disabled fieldset stands above an element that it does not spare: the child of the
fieldset on the way from the element is not the first legend. -/
def IsFencedBy (d : Document) (f e : NodeId) : Prop :=
  d.isTagged f "fieldset" = true ∧ d.hasAttribute f "disabled" = true ∧
    ∃ c, Relation.ReflTransGen (Linked d.parentElement) e c ∧ d.parentElement c = some f ∧
      d.firstLegend f ≠ some c

/-- The three ways in which a form control may be disabled. -/
def IsDisabledControl (d : Document) (e : NodeId) : Prop :=
  d.hasAttribute e "disabled" = true ∨
    (d.isTagged e "option" = true ∧ ∃ p, d.parentElement e = some p ∧
      d.isTagged p "optgroup" = true ∧ d.hasAttribute p "disabled" = true) ∨
    (d.isTagged e "option" = false ∧ d.isTagged e "optgroup" = false ∧ ∃ f, d.IsFencedBy f e)

variable {d : Document}

lemma isElement_of_isTagged {n : NodeId} {tag : String} (h : d.isTagged n tag = true) :
    d.isElement n = true := by
  obtain ⟨name, hname, -⟩ := Option.any_eq_true _ _ |>.mp h
  rw [localName, Option.map_eq_some_iff] at hname
  obtain ⟨element, helement, -⟩ := hname
  simp [isElement, helement]

/-- A fieldset above an element is its parent, or it stands above the parent. -/
theorem exists_isFencedBy_iff {e a : NodeId} (ha : d.parentElement e = some a) :
    (∃ f, d.IsFencedBy f e) ↔
      (d.isTagged a "fieldset" = true ∧ d.hasAttribute a "disabled" = true ∧
        d.firstLegend a ≠ some e) ∨ ∃ f, d.IsFencedBy f a := by
  constructor
  · rintro ⟨f, hset, hdisabled, c, hreach, hparent, hspared⟩
    obtain rfl | ⟨b, hb, hreach⟩ := Relation.ReflTransGen.cases_head hreach
    · obtain rfl := Option.some.inj (ha.symm.trans hparent)
      exact .inl ⟨hset, hdisabled, hspared⟩
    · obtain rfl := Option.some.inj (ha.symm.trans hb)
      exact .inr ⟨f, hset, hdisabled, c, hreach, hparent, hspared⟩
  · rintro (⟨hset, hdisabled, hspared⟩ | ⟨f, hset, hdisabled, c, hreach, hparent, hspared⟩)
    · exact ⟨a, hset, hdisabled, e, .refl, ha, hspared⟩
    · exact ⟨f, hset, hdisabled, c, .head ha hreach, hparent, hspared⟩

lemma not_isFencedBy_of_top {e : NodeId} (he : d.parentElement e = none) (f : NodeId) :
    ¬ d.IsFencedBy f e := by
  rintro ⟨-, -, c, hreach, hparent, -⟩
  obtain rfl | ⟨b, hb, -⟩ := Relation.ReflTransGen.cases_head hreach
  · simp [he] at hparent
  · simp [Linked, he] at hb

namespace IsForest

section

variable (h : d.IsForest)
include h

lemma firstTagged_legend (f : NodeId) : d.firstTagged f "legend" = d.firstLegend f := by
  rw [firstTagged, firstChild_eq, h.seek_next (List.nil_append _).symm (h.length_children_le f),
    firstLegend]
  congr 1
  funext c
  by_cases hc : d.isTagged c "legend" = true
  · simp [hc, isElement_of_isTagged hc]
  · simp [hc]

/-- The walk up asks every fieldset above about the child through which it came. -/
theorem isFenced_iff {bound : Nat} {below : NodeId}
    (hends : Ends d.parentElement bound (d.parentElement below)) :
    d.isFenced bound below (d.parentElement below) = true ↔ ∃ f, d.IsFencedBy f below := by
  induction bound generalizing below with
  | zero =>
    cases ha : d.parentElement below with
    | none => simp [isFenced, not_isFencedBy_of_top ha]
    | some a => simp [ha, Ends] at hends
  | succ bound ih =>
    cases ha : d.parentElement below with
    | none => simp [isFenced, not_isFencedBy_of_top ha]
    | some a =>
      rw [ha] at hends
      rw [isFenced, Bool.or_eq_true, ih hends.next_succ, exists_isFencedBy_iff ha,
        h.firstTagged_legend]
      simp [and_assoc]

lemma isDisabled_iff (e : NodeId) : d.isDisabled e = true ↔ d.IsDisabledControl e := by
  rw [isDisabled, IsDisabledControl]
  by_cases hself : d.hasAttribute e "disabled" = true
  · simp [hself]
  by_cases hoption : d.isTagged e "option" = true
  · simp [hself, hoption, Option.any_eq_true]
  by_cases hgroup : d.isTagged e "optgroup" = true
  · simp [hself, hoption, hgroup]
  · simp [hself, hoption, hgroup, h.isFenced_iff (h.ends_step .parent e)]

end

end IsForest

/-- A disabled fieldset with a remark before its two legends. The first legend holds an input, and a
second fieldset in it, disabled too, that has no legend. Below the fieldsets stands a list whose
group is disabled. -/
def controls : Document :=
  let (d, outer) := (Document.empty false).appendElement root "fieldset" [("disabled", "")]
  let (d, _) := d.appendElement outer "p" []
  let (d, first) := d.appendElement outer "legend" []
  let (d, _) := d.appendElement first "input" []
  let (d, inner) := d.appendElement first "fieldset" [("disabled", "")]
  let (d, _) := d.appendElement inner "button" []
  let (d, second) := d.appendElement outer "legend" []
  let (d, _) := d.appendElement second "textarea" []
  let (d, list) := d.appendElement root "select" []
  let (d, group) := d.appendElement list "optgroup" [("disabled", "")]
  (d.appendElement group "option" []).1

lemma isForest_controls : controls.IsForest :=
  isForest_of_isOrderly (by decide +kernel)

end Document

namespace Compile

lemma simple_predicate [PatternLibrary] {registry : Registry} {call : PseudoClass}
    {accepts : Scope → NodeId → Bool}
    (h : registry.get? call.name = some (.predicate accepts)) (nested : String → Compile Compiled) :
    simple registry nested (.pseudo call) = pure (.test (.check accepts)) := by
  rw [simple, h]

/-- In a forest `:disabled` accepts a form control with the attribute `disabled`, an option whose
parent is a disabled group, and a control other than options and groups that a disabled fieldset
above it does not spare. It accepts no other form control; `:enabled` accepts just these others. -/
theorem disabled_or_enabled : ∃ disabled enabled : Scope → NodeId → Bool,
    (∀ [PatternLibrary] nested argument quoted,
      simple .standard nested (.pseudo ⟨"disabled", argument, quoted⟩) =
        pure (.test (.check disabled))) ∧
    (∀ [PatternLibrary] nested argument quoted,
      simple .standard nested (.pseudo ⟨"enabled", argument, quoted⟩) =
        pure (.test (.check enabled))) ∧
    ∀ s : Scope, s.document.IsForest → ∀ e, s.document.isFormControl e = true →
      (disabled s e = true ↔ s.document.IsDisabledControl e) ∧
      enabled s e = !disabled s e := by
  have hdisabled : Registry.standard.get? "disabled" = some (.predicate fun s n =>
      s.document.isFormControl n && s.document.isDisabled n) := by
    with_unfolding_all rfl
  have henabled : Registry.standard.get? "enabled" = some (.predicate fun s n =>
      s.document.isFormControl n && !s.document.isDisabled n) := by
    with_unfolding_all rfl
  refine ⟨_, _, fun nested _ _ => simple_predicate hdisabled nested,
    fun nested _ _ => simple_predicate henabled nested, fun s h e hcontrol => ?_⟩
  simp [hcontrol, h.isDisabled_iff]

/-- The input in the first legend is enabled. The button further down is not, since a fieldset
within the legend is disabled too; nor is the text field in the second legend, nor the option. -/
theorem disabled_or_enabled_controls : ∃ disabled enabled : Scope → NodeId → Bool,
    let s : Scope := ⟨Page.host ⟨Document.controls, 0, .indexed⟩, none, false⟩
    (∀ [PatternLibrary] nested, simple .standard nested (.pseudo ⟨"disabled", none, false⟩) =
      pure (.test (.check disabled))) ∧
    (∀ [PatternLibrary] nested, simple .standard nested (.pseudo ⟨"enabled", none, false⟩) =
      pure (.test (.check enabled))) ∧
    s.document.IsForest ∧ enabled s 4 = true ∧ disabled s 6 = true ∧ enabled s 6 = false ∧
      disabled s 8 = true ∧ disabled s 11 = true := by
  obtain ⟨disabled, enabled, hdisable, henable, hasks⟩ := disabled_or_enabled
  refine ⟨disabled, enabled, ?_⟩
  intro s
  have hforest : s.document.IsForest := Document.isForest_controls
  have hinput : ¬ s.document.IsDisabledControl 4 := by
    rw [← hforest.isDisabled_iff]
    decide +kernel
  have hbutton : s.document.IsDisabledControl 6 :=
    .inr (.inr ⟨by decide +kernel, by decide +kernel, 5, by decide +kernel, by decide +kernel,
      6, .refl, by decide +kernel, by decide +kernel⟩)
  have htext : s.document.IsDisabledControl 8 :=
    .inr (.inr ⟨by decide +kernel, by decide +kernel, 1, by decide +kernel, by decide +kernel,
      7, .single (by decide +kernel : s.document.parentElement 8 = some 7), by decide +kernel,
      by decide +kernel⟩)
  have hoption : s.document.IsDisabledControl 11 :=
    .inr (.inl ⟨by decide +kernel, 10, by decide +kernel, by decide +kernel, by decide +kernel⟩)
  obtain ⟨hdisabled, henabled⟩ := hasks s hforest 4 (by decide +kernel)
  obtain ⟨hdisabled6, henabled6⟩ := hasks s hforest 6 (by decide +kernel)
  have hoff := hdisabled6.mpr hbutton
  refine ⟨fun nested => hdisable nested none false, fun nested => henable nested none false,
    hforest, ?_, hoff, ?_, (hasks s hforest 8 (by decide +kernel)).1.mpr htext,
    (hasks s hforest 11 (by decide +kernel)).1.mpr hoption⟩
  · rw [henabled, Bool.eq_false_iff.mpr fun hon => hinput (hdisabled.mp hon)]
    rfl
  · rw [henabled6, hoff]
    rfl

end Compile

end TreeQuery
