import TreeQuery.Proofs.Selector.Spelled.Formulas

/-!
# Structural positions in every spelling

A position is found exactly where a keyword, a kind of siblings and perhaps an argument are spelled,
and what is read of it is told by the spelling. The keyword counts as it is spelled with one
exception: letters are compared without regard to case, but the keyword is looked up by its ASCII
letters, so a long s makes `:first-child` and `:last-child` a position counted from the end.
-/

namespace TreeQuery

open Written

namespace Spelled

/-- A structural position as it is spelled, with an argument or without one. -/
structure Place where
  keyword : Position
  ofType : Bool
  letters : List Char
  kindLetters : List Char
  argument : Option Argument
  folds : List.Forall₂ Folds letters (Written.keyword keyword)
  kind_folds : List.Forall₂ Folds kindLetters (kind ofType)

def Place.argumentText (p : Place) : List Char := (p.argument.map Argument.text).getD []

def Place.text (p : Place) : List Char := ':' :: (p.letters ++ (p.kindLetters ++ p.argumentText))

/-- Whether digits are an ASCII numeral of a signed 64-bit number. -/
def IsNumeral (digits : List Char) : Prop :=
  digits.all Char.isDigit = true ∧ (Nat.ofDigitChars 10 digits 0 : Int) ≤ maxSigned

instance (digits : List Char) : Decidable (IsNumeral digits) := inferInstanceAs (Decidable (_ ∧ _))

/-- The runs of digits in an argument. -/
def Count.runs : Count → List (List Char)
  | even _ _ | odd _ _ => []
  | linear step _ _ offset =>
    ((step.map Step.digits).toList ++ (offset.map Offset.digits).toList).filter (· ≠ [])

/-- The number before `n`; a missing one is one. -/
def Step.value (s : Step) : Int :=
  s.mark.apply (if s.digits = [] then 1 else Nat.ofDigitChars 10 s.digits 0)

def Offset.value (o : Offset) : Int := o.mark.apply (Nat.ofDigitChars 10 o.digits 0)

/-- The coefficients of `a n + b`. A missing part is zero. -/
def Count.coefficients : Count → Int × Int
  | even _ _ => (2, 0)
  | odd _ _ => (2, 1)
  | linear step _ _ offset => ((step.map Step.value).getD 0, (offset.map Offset.value).getD 0)

/-- What a spelling stands for if its keyword stands for `position`. -/
def Place.meaning (p : Place) (position : Position) : Except SelectorError StructuralPosition :=
  if position = .nth ∨ position = .nthLast then
    match p.argument with
    | none => .error (.missingArgument (String.ofList p.text))
    | some a =>
      if ∀ digits ∈ a.count.runs, IsNumeral digits then
        .ok ⟨position, p.ofType, a.count.coefficients.1, a.count.coefficients.2⟩
      else .error (.unrecognized (String.ofList p.text))
  else
    match p.argument with
    | none => .ok ⟨position, p.ofType, 0, 0⟩
    | some _ => .error (.unrecognized (String.ofList p.text))

/-- The position that the letters of the keyword are taken for. With a long s among them they are
in no table, and the last position stands in. -/
def Place.position (p : Place) : Position := if 'ſ' ∈ p.letters then .nthLast else p.keyword

end Spelled

section Names

lemma keyword_alphabet (position : Position) : keyword position ⊆ Spelled.alphabet := by
  cases position <;> decide

lemma kind_alphabet (ofType : Bool) : kind ofType ⊆ Spelled.alphabet := by
  cases ofType <;> decide

lemma foldedLetter_eq_toLower {c : Char} (hc : c ≠ 'ſ') : foldedLetter c = c.toLower := if_neg hc

/-- ASCII letters tell the keyword unless a long s stands among them. -/
theorem ofSpelling_keyword {position : Position} {letters : List Char}
    (hletters : letters.map foldedLetter = keyword position) :
    Position.ofSpelling (keyword position, position) letters =
      if 'ſ' ∈ letters then .nthLast else position := by
  by_cases hlong : 'ſ' ∈ letters
  · have hne : letters.map Char.toLower ≠ keyword position := by
      intro heq
      have hmem : 'ſ' ∈ keyword position := heq ▸ List.mem_map_of_mem hlong
      exact absurd (keyword_letters position false 'ſ' (List.mem_append_left _ hmem)) (by decide)
    rw [if_pos hlong, Position.ofSpelling, if_neg hne]
  · have heq : letters.map Char.toLower = keyword position := by
      rw [← hletters]
      exact List.map_congr_left fun c hc =>
        (foldedLetter_eq_toLower (fun h => hlong (h ▸ hc))).symm
    rw [if_neg hlong, Position.ofSpelling, if_pos heq]

lemma mem_keywords (position : Position) :
    (keyword position, position) ∈ Position.keywords := by
  cases position <;> decide

/-- A kind of siblings is read where its letters stand, or else another one is. -/
theorem siblingKind?_isSome {ofType : Bool} {letters : List Char}
    (hletters : letters.map foldedLetter = kind ofType) (rest : List Char) :
    (siblingKind? (letters ++ rest)).isSome = true := by
  have hafter : afterKeyword? (kind ofType) (letters ++ rest) = some rest :=
    afterKeyword?_eq_some_iff.mpr ⟨letters, rfl, hletters⟩
  rw [siblingKind?_eq]
  cases hchild : afterKeyword? (kind false) (letters ++ rest) with
  | some after => rfl
  | none =>
    cases ofType with
    | false => exact absurd (hchild.symm.trans hafter) (by simp)
    | true => rw [hafter]; rfl

lemma length_eq_of_folded {letters letters' : List Char}
    (h : letters.map foldedLetter = letters'.map foldedLetter) :
    letters.length = letters'.length := by
  simpa using congrArg List.length h

/-- What is read as the name of a position is spelled so. -/
theorem exists_letters {text rest : List Char} {position : Position} {ofType : Bool}
    (h : structuralName? text = some ((position, ofType), rest)) :
    ∃ spelled letters kindLetters, text = letters ++ (kindLetters ++ rest) ∧
      letters.map foldedLetter = keyword spelled ∧ kindLetters.map foldedLetter = kind ofType ∧
      position = if 'ſ' ∈ letters then .nthLast else spelled := by
  rw [structuralName?_eq] at h
  obtain ⟨⟨word, spelled⟩, hentry, hfound⟩ := List.exists_of_findSome?_eq_some h
  obtain rfl : word = keyword spelled := congrArg Prod.fst (eq_keyword_of_mem hentry)
  obtain ⟨after, hafter, hbehind⟩ := Option.bind_eq_some_iff.mp hfound
  obtain ⟨⟨ofType', rest'⟩, hkind, heq⟩ := Option.map_eq_some_iff.mp hbehind
  obtain ⟨hname, rfl⟩ := Prod.mk.inj heq
  obtain ⟨hposition, rfl⟩ := Prod.mk.inj hname
  obtain ⟨letters, rfl, hletters⟩ := afterKeyword?_eq_some_iff.mp hafter
  obtain ⟨kindLetters, rfl, hkindLetters⟩ :=
    afterKeyword?_eq_some_iff.mp (siblingKind?_eq_some hkind)
  have hlength : (keyword spelled).length = letters.length :=
    (congrArg List.length hletters).symm.trans (List.length_map foldedLetter)
  refine ⟨spelled, letters, kindLetters, rfl, hletters, hkindLetters, ?_⟩
  rw [← hposition, hlength, List.take_left]
  exact ofSpelling_keyword hletters

/-- The name of a position is read as it is spelled: no other keyword and kind of siblings can be
found there, since folding the letters would make one text start with two names. -/
theorem structuralName?_letters {spelled : Position} {ofType : Bool}
    {letters kindLetters : List Char} (hletters : letters.map foldedLetter = keyword spelled)
    (hkind : kindLetters.map foldedLetter = kind ofType) (rest : List Char) :
    structuralName? (letters ++ (kindLetters ++ rest)) =
      some ((if 'ſ' ∈ letters then .nthLast else spelled, ofType), rest) := by
  have hsome : (structuralName? (letters ++ (kindLetters ++ rest))).isSome = true := by
    rw [structuralName?_eq, List.findSome?_isSome_iff]
    refine ⟨_, mem_keywords spelled, ?_⟩
    rw [nameFrom?, afterKeyword?_eq_some_iff.mpr ⟨letters, rfl, hletters⟩, Option.bind_some,
      Option.isSome_map]
    exact siblingKind?_isSome hkind rest
  obtain ⟨⟨⟨position, ofType'⟩, rest'⟩, hfound⟩ := Option.isSome_iff_exists.mp hsome
  obtain ⟨spelled', letters', kindLetters', htext, hletters', hkind', rfl⟩ := exists_letters hfound
  have hfolded := congrArg (fun text => structuralName? (text.map foldedLetter)) htext
  simp only [List.map_append, hletters, hkind, hletters', hkind', ← List.append_assoc,
    structuralName?_text, Option.some.injEq, Prod.mk.injEq] at hfolded
  obtain ⟨⟨rfl, rfl⟩, -⟩ := hfolded
  obtain ⟨rfl, hbehind⟩ :=
    List.append_inj htext (length_eq_of_folded (hletters.trans hletters'.symm))
  obtain ⟨rfl, rfl⟩ := List.append_inj hbehind (length_eq_of_folded (hkind.trans hkind'.symm))
  exact hfound

end Names

section Coefficients

lemma signedDigits?_eq (m : Mark) {digits : List Char} (hne : digits ≠ []) :
    signedDigits? m.negative digits =
      if Spelled.IsNumeral digits then some (m.apply (Nat.ofDigitChars 10 digits 0)) else none := by
  rw [signedDigits?, decimal?_eq hne]
  by_cases hdigits : digits.all Char.isDigit = true
  · rw [if_pos hdigits]
    change Option.map _ (Option.filter _ (some (Nat.ofDigitChars 10 digits 0 : Int))) = _
    rw [Option.filter_some]
    by_cases hrange : (Nat.ofDigitChars 10 digits 0 : Int) ≤ maxSigned
    · rw [if_pos (decide_eq_true hrange), if_pos ⟨hdigits, hrange⟩]
      rfl
    · rw [if_neg (by simpa using hrange), if_neg fun h => hrange h.2]
      rfl
  · rw [if_neg hdigits, if_neg fun h => hdigits h.1]
    rfl

end Coefficients

namespace Spelled

lemma Step.coefficients? (s : Step) :
    Formula.coefficients? (.linear (some (s.mark.negative, s.digits)) none) =
      if s.digits = [] ∨ IsNumeral s.digits then some (s.value, 0) else none := by
  cases hdigits : s.digits with
  | nil =>
    rw [if_pos (.inl rfl), Step.value, if_pos hdigits]
    cases s.mark <;> rfl
  | cons d digits =>
    have hne : d :: digits ≠ [] := List.cons_ne_nil d digits
    have hread := signedDigits?_eq s.mark hne
    rw [Step.value, hdigits, if_neg hne]
    simp only [Formula.coefficients?, hread, hne, false_or]
    split <;> rfl

lemma Offset.coefficients? (o : Offset) :
    Formula.coefficients? (.linear none (some (o.mark.negative, o.digits))) =
      if IsNumeral o.digits then some (0, o.value) else none := by
  simp only [Formula.coefficients?, signedDigits?_eq o.mark o.inhabited]
  split <;> rfl

/-- Only the digits before `n` may be missing. -/
theorem Count.forall_runs_iff (step : Option Step) (gap : List Char)
    (blank : ∀ c ∈ gap, isBlank c = true) (offset : Option Offset) :
    (∀ digits ∈ (Count.linear step gap blank offset).runs, IsNumeral digits) ↔
      (∀ s ∈ step, s.digits = [] ∨ IsNumeral s.digits) ∧ ∀ o ∈ offset, IsNumeral o.digits := by
  have hstep : (∀ digits ∈ (step.map Step.digits).toList, digits ≠ [] → IsNumeral digits) ↔
      ∀ s ∈ step, s.digits = [] ∨ IsNumeral s.digits := by
    cases step <;> simp [or_iff_not_imp_left]
  have hoffset : (∀ digits ∈ (offset.map Offset.digits).toList, digits ≠ [] → IsNumeral digits) ↔
      ∀ o ∈ offset, IsNumeral o.digits := by
    have hkept : ∀ o : Offset, o.digits ≠ [] := Offset.inhabited
    cases offset <;> simp [hkept]
  rw [← hstep, ← hoffset, ← List.forall_mem_append]
  simp only [Count.runs, List.mem_filter, decide_eq_true_eq, and_imp]

/-- The coefficients are read where every run of digits is a numeral. -/
theorem Count.coefficients?_formula (c : Count) :
    c.formula.coefficients? =
      if ∀ digits ∈ c.runs, IsNumeral digits then some c.coefficients else none := by
  cases c with
  | even word folds => rfl
  | odd word folds => rfl
  | linear step gap blank offset =>
    have hstep : Formula.coefficients?
        (.linear (step.map fun s => (s.mark.negative, s.digits)) none) =
        if ∀ s ∈ step, s.digits = [] ∨ IsNumeral s.digits then
          some ((step.map Step.value).getD 0, 0) else none := by
      cases step with
      | none => rfl
      | some s => simpa using s.coefficients?
    have hoffset : Formula.coefficients?
        (.linear none (offset.map fun o => (o.mark.negative, o.digits))) =
        if ∀ o ∈ offset, IsNumeral o.digits then
          some (0, (offset.map Offset.value).getD 0) else none := by
      cases offset with
      | none => rfl
      | some o => simpa using o.coefficients?
    have hruns := Count.forall_runs_iff step gap blank offset
    rw [Count.formula, coefficients?_linear_eq, hstep, hoffset]
    by_cases hs : ∀ s ∈ step, s.digits = [] ∨ IsNumeral s.digits
    · by_cases ho : ∀ o ∈ offset, IsNumeral o.digits
      · rw [if_pos hs, if_pos ho, if_pos (hruns.mpr ⟨hs, ho⟩)]
        rfl
      · rw [if_pos hs, if_neg ho, if_neg fun h => ho (hruns.mp h).2]
        rfl
    · rw [if_neg hs, if_neg fun h => hs (hruns.mp h).1]
      rfl

lemma Place.resolve_eq (p : Place) (position : Position) :
    StructuralPosition.resolve (String.ofList p.text) position p.ofType
      (p.argument.map fun a => a.count.formula) = p.meaning position := by
  unfold StructuralPosition.resolve Place.meaning
  cases p.argument with
  | none => rfl
  | some a =>
    rw [Option.map_some]
    dsimp only
    rw [a.count.coefficients?_formula]
    by_cases hruns : ∀ digits ∈ a.count.runs, IsNumeral digits
    · rw [if_pos hruns, if_pos hruns]
    · rw [if_neg hruns, if_neg hruns]

lemma natAbs_le_of_le_two {n : Int} (h : n = 0 ∨ n = 1 ∨ n = 2) :
    (n.natAbs : Int) ≤ maxSigned := by
  obtain rfl | rfl | rfl := h <;> decide

lemma natAbs_apply (m : Mark) (n : Nat) : (m.apply n).natAbs = n := by
  cases m <;> simp [Mark.apply, Mark.negative]

lemma Step.natAbs_value_le (s : Step) (h : s.digits = [] ∨ IsNumeral s.digits) :
    (s.value.natAbs : Int) ≤ maxSigned := by
  rw [Step.value, natAbs_apply]
  obtain hnil | hnumeral := h
  · rw [if_pos hnil]
    decide
  · split
    · decide
    · exact hnumeral.2

lemma Offset.natAbs_value_le (o : Offset) (h : IsNumeral o.digits) :
    (o.value.natAbs : Int) ≤ maxSigned := by
  rw [Offset.value, natAbs_apply]
  exact h.2

/-- Numerals in range give coefficients in range, whatever their signs are. -/
theorem Count.natAbs_coefficients_le (c : Count) (hruns : ∀ digits ∈ c.runs, IsNumeral digits) :
    (c.coefficients.1.natAbs : Int) ≤ maxSigned ∧ (c.coefficients.2.natAbs : Int) ≤ maxSigned := by
  have hzero : ((0 : Int).natAbs : Int) ≤ maxSigned := natAbs_le_of_le_two (.inl rfl)
  have htwo : ((2 : Int).natAbs : Int) ≤ maxSigned := natAbs_le_of_le_two (.inr (.inr rfl))
  cases c with
  | even word folds => exact ⟨htwo, hzero⟩
  | odd word folds => exact ⟨htwo, natAbs_le_of_le_two (.inr (.inl rfl))⟩
  | linear step gap blank offset =>
    obtain ⟨hstep, hoffset⟩ := (Count.forall_runs_iff step gap blank offset).mp hruns
    constructor
    · cases step with
      | none => exact hzero
      | some s => exact s.natAbs_value_le (hstep s rfl)
    · cases offset with
      | none => exact hzero
      | some o => exact o.natAbs_value_le (hoffset o rfl)

/-- No position that is read has a coefficient whose negative is out of range. -/
theorem Place.natAbs_le (p : Place) {position : Position} {found : StructuralPosition}
    (h : p.meaning position = .ok found) :
    (found.a.natAbs : Int) ≤ maxSigned ∧ (found.b.natAbs : Int) ≤ maxSigned := by
  unfold Place.meaning at h
  split at h
  · split at h
    · exact nomatch h
    · split at h
      · rename_i hruns
        obtain rfl := Except.ok.inj h
        exact Count.natAbs_coefficients_le _ hruns
      · exact nomatch h
  · split at h
    · obtain rfl := Except.ok.inj h
      exact ⟨natAbs_le_of_le_two (.inl rfl), natAbs_le_of_le_two (.inl rfl)⟩
    · exact nomatch h

/-- The argument at the start of a text, if there is one, and what follows. -/
def argumentAt (text : List Char) : Option Formula × List Char :=
  match formula? text with
  | some (formula, rest) => (some formula, rest)
  | none => (none, text)

lemma structural?_eq (text : List Char) :
    structural? (':' :: text) = (structuralName? text).bind fun (name, after) =>
      if (argumentAt after).2.head?.any continuesIdentifier then none
      else some (StructuralPosition.resolve
        (String.ofList (':' :: before text (argumentAt after).2)) name.1 name.2
        (argumentAt after).1, (argumentAt after).2) :=
  rfl

/-- The argument that is read behind the name is the one that is spelled there, or none. -/
theorem Place.argumentAt_text (p : Place) {rest : List Char}
    (hrest : p.argument = none → ∀ a : Argument, ¬ a.text <+: rest) :
    argumentAt (p.argumentText ++ rest) = (p.argument.map fun a => a.count.formula, rest) := by
  unfold Place.argumentText argumentAt
  cases hargument : p.argument with
  | some a => rw [Option.map_some, Option.getD_some, a.formula?_text rest]; rfl
  | none =>
    rw [Option.map_none, Option.getD_none, List.nil_append]
    cases hformula : formula? rest with
    | none => rfl
    | some found =>
      obtain ⟨a, hprefix, -⟩ := formula?_eq_some_iff.mp hformula
      exact absurd ⟨found.2, hprefix.symm⟩ (hrest hargument a)

lemma exists_argumentAt (text : List Char) :
    ∃ argument : Option Argument,
      text = (argument.map Argument.text).getD [] ++ (argumentAt text).2 ∧
      (argument = none → ∀ a : Argument, ¬ a.text <+: (argumentAt text).2) := by
  unfold argumentAt
  cases hformula : formula? text with
  | some found =>
    obtain ⟨a, htext, -⟩ := formula?_eq_some_iff.mp hformula
    exact ⟨some a, htext, nofun⟩
  | none =>
    refine ⟨none, rfl, fun _ a => ?_⟩
    rintro ⟨rest, rfl⟩
    rw [a.formula?_text rest] at hformula
    exact nomatch hformula

/-- What is spelled at the start of a text is read. -/
theorem Place.structural?_text (p : Place) {rest : List Char}
    (hend : rest.head?.any continuesIdentifier = false)
    (hrest : p.argument = none → ∀ a : Argument, ¬ a.text <+: rest) :
    structural? (p.text ++ rest) = some (p.meaning p.position, rest) := by
  have hraw : before (p.letters ++ (p.kindLetters ++ (p.argumentText ++ rest))) rest =
      p.letters ++ (p.kindLetters ++ p.argumentText) := by
    rw [← List.append_assoc p.kindLetters, ← List.append_assoc, before_append_left]
  have hletters := (forall₂_folds_iff (keyword_alphabet p.keyword)).mp p.folds
  have hkind := (forall₂_folds_iff (kind_alphabet p.ofType)).mp p.kind_folds
  have hname := structuralName?_letters hletters hkind (p.argumentText ++ rest)
  rw [Place.text, List.cons_append, List.append_assoc, List.append_assoc, structural?_eq, hname,
    Option.bind_some]
  dsimp only
  rw [p.argumentAt_text hrest, hend, if_neg (by decide), hraw]
  exact congrArg (fun found => some (found, rest)) (p.resolve_eq p.position)

/-- What is read at the start of a text is spelled there. -/
theorem exists_place {text rest : List Char} {found : Except SelectorError StructuralPosition}
    (h : structural? text = some (found, rest)) :
    ∃ p : Place, text = p.text ++ rest ∧ rest.head?.any continuesIdentifier = false ∧
      (p.argument = none → ∀ a : Argument, ¬ a.text <+: rest) := by
  obtain ⟨inner, rfl, -⟩ := structural?_suffix h
  rw [structural?_eq] at h
  obtain ⟨⟨⟨position, ofType⟩, after⟩, hname, hfound⟩ := Option.bind_eq_some_iff.mp h
  obtain ⟨spelled, letters, kindLetters, rfl, hletters, hkind, -⟩ := exists_letters hname
  obtain ⟨argument, hafter, hnone⟩ := exists_argumentAt after
  dsimp only at hfound
  split at hfound
  · exact nomatch hfound
  · rename_i hend
    obtain ⟨-, rfl⟩ := Prod.mk.inj (Option.some.inj hfound)
    refine ⟨⟨spelled, ofType, letters, kindLetters, argument,
      (forall₂_folds_iff (keyword_alphabet spelled)).mpr hletters,
      (forall₂_folds_iff (kind_alphabet ofType)).mpr hkind⟩, ?_, by simpa using hend, hnone⟩
    conv_lhs => rw [hafter]
    simp [Place.text, Place.argumentText]

/-- A structural position is read exactly where one is spelled that nothing goes on behind, with the
argument if there is one. What is read is what the spelling stands for, except that a long s has its
keyword taken for the last position. -/
theorem structural?_eq_some_iff {text rest : List Char}
    {found : Except SelectorError StructuralPosition} :
    structural? text = some (found, rest) ↔
      ∃ p : Place, text = p.text ++ rest ∧ rest.head?.any continuesIdentifier = false ∧
        (p.argument = none → ∀ a : Argument, ¬ a.text <+: rest) ∧
        found = p.meaning p.position := by
  constructor
  · intro h
    obtain ⟨p, htext, hend, hrest⟩ := exists_place h
    rw [htext, p.structural?_text hend hrest] at h
    exact ⟨p, htext, hend, hrest, (congrArg Prod.fst (Option.some.inj h)).symm⟩
  · rintro ⟨p, rfl, hend, hrest, rfl⟩
    exact p.structural?_text hend hrest

example : structural? ":firſt-child".toList =
    some (.error (.missingArgument ":firſt-child"), []) := by
  decide +kernel

example : structural? ":LaſT-Child( +2 )".toList = some (.ok ⟨.nthLast, false, 0, 2⟩, []) := by
  decide +kernel

end Spelled

end TreeQuery
