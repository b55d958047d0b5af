import TreeQuery.Proofs.Selector.Tails.Spacing

/-!
# Structural positions of spaced texts

No blank belongs to a keyword or to a number, and between the parts of a formula any blank will do.
So the same position is read from the spaced text, and as much of it.
-/

namespace TreeQuery

open Written

variable {lines : Bool} {c d : Char} {x t text more rest : List Char}

section Positions

variable (lines)

lemma afterKeyword?_spaced {word : List Char} (hword : ∀ k ∈ word, isWordChar k = true)
    (text : List Char) :
    afterKeyword? word (spaced lines text) = (afterKeyword? word text).map (spaced lines) := by
  induction word generalizing text with
  | nil => rfl
  | cons k word ih =>
    cases text with
    | nil => rfl
    | cons c text =>
      obtain ⟨more, hspaced, hmore⟩ := exists_spaced_cons lines c text
      have hk := hword k List.mem_cons_self
      rw [hspaced, afterKeyword?, afterKeyword?]
      cases hb : isBlank c with
      | true =>
        have hne : ∀ {d : Char}, isBlank d = true → foldedLetter d ≠ k := by
          intro d hd heq
          have hstop : continuesIdentifier d = false := by
            cases hname : continuesIdentifier d with
            | false => rfl
            | true => cases (isBlank_of_continuesIdentifier hname).symm.trans hd
          rw [foldedLetter_of_stop hstop] at heq
          rw [continuesIdentifier, heq, hk] at hstop
          cases hstop
        rw [if_neg (hne hb), if_neg (hne ((isBlank_spacedChar c).trans hb))]
        rfl
      | false =>
        rw [spacedChar_of_not_blank hb]
        split
        · rename_i hc
          have hslash : c ≠ '\\' := by
            rintro rfl
            rw [← hc] at hk
            exact absurd hk (by decide)
          rw [hmore hslash]
          exact ih (fun k hk => hword k (List.mem_cons_of_mem _ hk)) text
        · rfl

lemma siblingKind?_spaced (text : List Char) :
    Twin lines Eq (siblingKind? text) (siblingKind? (spaced lines text)) := by
  rw [siblingKind?_eq, siblingKind?_eq, afterKeyword?_spaced lines (kind_letters false),
    afterKeyword?_spaced lines (kind_letters true)]
  cases afterKeyword? (kind false) text with
  | none => exact .of_rest rfl
  | some rest => exact .some rest rfl

lemma nameFrom?_spaced {entry : List Char × Position} (h : entry ∈ Position.keywords)
    (text : List Char) :
    Twin lines Eq (nameFrom? text entry) (nameFrom? (spaced lines text) entry) := by
  have hword := word_of_keywords h
  rw [nameFrom?, nameFrom?, afterKeyword?_spaced lines hword]
  cases hafter : afterKeyword? entry.1 text with
  | none => exact .none
  | some after =>
    obtain ⟨name, rfl, hlength, hname⟩ := afterKeyword?_eq_some hword hafter
    have hplain : ∀ c ∈ name, c ≠ '\\' ∧ isBlank c = false := fun c hc =>
      ⟨(hname c hc).1, isBlank_of_isWordChar (hname c hc).2⟩
    rw [spaced_append_of_plain hplain, Option.map_some, Option.bind_some, Option.bind_some,
      ← hlength, List.take_left, List.take_left]
    exact (siblingKind?_spaced lines after).map
      (fun ofType => (Position.ofSpelling entry name, ofType))
      (fun ofType => (Position.ofSpelling entry name, ofType)) fun _ _ h => h ▸ rfl

lemma structuralName?_spaced (text : List Char) :
    Twin lines Eq (structuralName? text) (structuralName? (spaced lines text)) := by
  have hall : ∀ entries ⊆ Position.keywords, Twin lines Eq (entries.findSome? (nameFrom? text))
      (entries.findSome? (nameFrom? (spaced lines text))) := by
    intro entries hentries
    induction entries with
    | nil => exact .none
    | cons entry entries ih =>
      obtain ⟨hentry, hmore⟩ := List.cons_subset.mp hentries
      have hfirst := nameFrom?_spaced lines hentry text
      rw [List.findSome?_cons, List.findSome?_cons]
      generalize nameFrom? text entry = found at hfirst
      generalize nameFrom? (spaced lines text) entry = found' at hfirst
      cases hfirst with
      | none => exact ih hmore
      | some rest heq => exact .some rest heq
  rw [structuralName?_eq, structuralName?_eq]
  exact hall _ (List.Subset.refl _)

lemma splitSign_spaced (text : List Char) :
    splitSign (spaced lines text) = ((splitSign text).1, spaced lines (splitSign text).2) := by
  have hother : ∀ {text : List Char}, (∀ c ∈ text.head?, c ∉ ['-', '+']) →
      splitSign text = (false, text) := by
    intro text h
    unfold splitSign
    split
    · exact absurd (h _ rfl) (by decide)
    · exact absurd (h _ rfl) (by decide)
    · rfl
  by_cases hsign : ∀ c ∈ text.head?, c ∉ ['-', '+']
  · rw [hother hsign, hother (head_spaced lines (by decide) hsign)]
  · cases text with
    | nil => rfl
    | cons c text =>
      have hc : c ∈ ['-', '+'] := by
        by_contra hc
        exact hsign (by rintro d ⟨⟩; exact hc)
      simp only [List.mem_cons, List.not_mem_nil, or_false] at hc
      obtain rfl | rfl := hc <;> rfl

lemma not_isDecimalDigit_of_isBlank (hb : isBlank c = true) : isDecimalDigit c = false := by
  simp only [isBlank, Bool.or_eq_true, beq_iff_eq] at hb
  obtain (((rfl | rfl) | rfl) | rfl) | rfl := hb <;> decide +kernel

lemma span_digits_spaced (text : List Char) :
    (spaced lines text).takeWhile isDecimalDigit = text.takeWhile isDecimalDigit ∧
      (spaced lines text).dropWhile isDecimalDigit =
        spaced lines (text.dropWhile isDecimalDigit) := by
  induction text with
  | nil => exact ⟨rfl, rfl⟩
  | cons c text ih =>
    by_cases hdigit : isDecimalDigit c = true
    · have hslash : c ≠ '\\' := by
        rintro rfl
        exact absurd hdigit (by decide +kernel)
      have hblank : isBlank c = false := by
        cases hb : isBlank c with
        | false => rfl
        | true => cases (not_isDecimalDigit_of_isBlank hb).symm.trans hdigit
      rw [spaced_plain hslash hblank, List.takeWhile_cons_of_pos hdigit,
        List.takeWhile_cons_of_pos hdigit, List.dropWhile_cons_of_pos hdigit,
        List.dropWhile_cons_of_pos hdigit, ih.1]
      exact ⟨rfl, ih.2⟩
    · obtain ⟨more, hspaced, -⟩ := exists_spaced_cons lines c text
      have hdigit' : ¬isDecimalDigit (spacedChar lines c) = true := by
        cases hb : isBlank c with
        | false => rwa [spacedChar_of_not_blank hb]
        | true => simp [not_isDecimalDigit_of_isBlank ((isBlank_spacedChar c).trans hb)]
      rw [List.takeWhile_cons_of_neg hdigit, List.dropWhile_cons_of_neg hdigit, hspaced,
        List.takeWhile_cons_of_neg hdigit', List.dropWhile_cons_of_neg hdigit']
      exact ⟨rfl, rfl⟩

lemma step?_spaced (text : List Char) :
    Twin lines Eq (step? text) (step? (spaced lines text)) := by
  rw [step?, step?, splitSign_spaced]
  dsimp only
  rw [(span_digits_spaced lines _).1, (span_digits_spaced lines _).2]
  cases hrest : (splitSign text).2.dropWhile isDecimalDigit with
  | nil => exact .none
  | cons c rest =>
    obtain ⟨more, hspaced, hmore⟩ := exists_spaced_cons lines c rest
    rw [hspaced]
    dsimp only
    cases hb : isBlank c with
    | false =>
      rw [spacedChar_of_not_blank hb]
      split
      · rename_i hc
        rw [hmore (by rintro rfl; exact absurd hc (by decide))]
        exact .some rest rfl
      · exact .none
    | true =>
      have hne : ∀ {d : Char}, isBlank d = true → foldedLetter d ≠ 'n' := by
        intro d hd
        simp only [isBlank, Bool.or_eq_true, beq_iff_eq] at hd
        obtain (((rfl | rfl) | rfl) | rfl) | rfl := hd <;> decide
      rw [if_neg (hne hb), if_neg (hne ((isBlank_spacedChar c).trans hb))]
      exact .none

lemma offset?_spaced (text : List Char) :
    Twin lines Eq (offset? text) (offset? (spaced lines text)) := by
  rw [offset?, offset?, splitSign_spaced]
  dsimp only
  rw [dropBlanks_spaced, (span_digits_spaced lines _).1, (span_digits_spaced lines _).2]
  cases (dropBlanks (splitSign text).2).takeWhile isDecimalDigit with
  | nil => exact .none
  | cons d digits => exact .some _ rfl

lemma linearFrom_spaced (step : Option (Bool × List Char)) (text : List Char) :
    linearFrom step (spaced lines text) =
      ((linearFrom step text).1, spaced lines (linearFrom step text).2) := by
  have hoffset := offset?_spaced lines (dropBlanks text)
  rw [linearFrom, linearFrom, dropBlanks_spaced]
  generalize offset? (dropBlanks text) = found at hoffset
  generalize offset? (spaced lines (dropBlanks text)) = found' at hoffset
  cases hoffset with
  | none => rfl
  | some rest heq =>
    subst heq
    rfl

lemma linear_spaced (text : List Char) :
    linear (spaced lines text) = ((linear text).1, spaced lines (linear text).2) := by
  have hstep := step?_spaced lines text
  rw [linear_eq, linear_eq]
  generalize step? text = found at hstep
  generalize step? (spaced lines text) = found' at hstep
  cases hstep with
  | none => exact linearFrom_spaced lines none text
  | some rest heq =>
    subst heq
    exact linearFrom_spaced lines _ rest

lemma keywordFormula?_spaced {word : List Char} (hword : word.all isWordChar = true)
    (formula : Formula) (text : List Char) :
    Twin lines Eq (keywordFormula? word formula text)
      (keywordFormula? word formula (spaced lines text)) := by
  rw [keywordFormula?, keywordFormula?, afterKeyword?_spaced lines (List.all_eq_true.mp hword)]
  cases afterKeyword? word text with
  | none => exact .none
  | some after =>
    rw [Option.map_some, Option.bind_some, Option.bind_some, closeParenthesis?_spaced]
    exact .of_rest rfl

lemma formula?_spaced (text : List Char) :
    Twin lines Eq (formula? text) (formula? (spaced lines text)) := by
  by_cases hopen : ∀ c ∈ text.head?, c ∉ ['(']
  · have hspaced := head_spaced lines (by decide) hopen
    rw [formula?_of_unopened (by simpa using hopen), formula?_of_unopened (by simpa using hspaced)]
    exact .none
  · cases text with
    | nil => exact .none
    | cons c text =>
      obtain rfl : c = '(' := by
        by_contra hc
        exact hopen (by rintro d ⟨⟩; simpa using hc)
      rw [spaced_plain (by decide) (by decide), formula?_eq, formula?_eq, dropBlanks_spaced,
        linear_spaced, closeParenthesis?_spaced]
      exact (keywordFormula?_spaced lines (by decide) _ _).or
        ((keywordFormula?_spaced lines (by decide) _ _).or (.of_rest rfl))

lemma continuesIdentifier_spacedChar (c : Char) :
    continuesIdentifier (spacedChar lines c) = continuesIdentifier c := by
  have hstop : ∀ {d : Char}, isBlank d = true → continuesIdentifier d = false := by
    intro d hd
    cases hname : continuesIdentifier d with
    | false => rfl
    | true => cases (isBlank_of_continuesIdentifier hname).symm.trans hd
  cases hb : isBlank c with
  | false => rw [spacedChar_of_not_blank hb]
  | true => rw [hstop hb, hstop ((isBlank_spacedChar c).trans hb)]

lemma isOk_resolve (raw raw' : String) (position : Position) (ofType : Bool)
    (formula : Option Formula) : (StructuralPosition.resolve raw position ofType formula).isOk =
      (StructuralPosition.resolve raw' position ofType formula).isOk := by
  cases formula with
  | none =>
    rw [StructuralPosition.resolve, StructuralPosition.resolve]
    split <;> rfl
  | some formula =>
    rw [StructuralPosition.resolve, StructuralPosition.resolve]
    split
    · cases formula.coefficients? <;> rfl
    · rfl

lemma structural?_spaced (text : List Char) :
    Twin lines (fun found found' => found.isOk = found'.isOk) (structural? (':' :: text))
      (structural? (':' :: spaced lines text)) := by
  rw [structural?, structural?]
  refine (structuralName?_spaced lines text).bind ?_
  rintro ⟨position, ofType⟩ _ after rfl
  have hformula := formula?_spaced lines after
  dsimp only
  generalize formula? after = found at hformula
  generalize formula? (spaced lines after) = found' at hformula
  have hend : ∀ (formula : Option Formula) (rest : List Char) (raw raw' : String),
      Twin lines (fun found found' => found.isOk = found'.isOk)
        (if rest.head?.any continuesIdentifier then none
          else some (StructuralPosition.resolve raw position ofType formula, rest))
        (if (spaced lines rest).head?.any continuesIdentifier then none
          else some
            (StructuralPosition.resolve raw' position ofType formula, spaced lines rest)) := by
    intro formula rest raw raw'
    have hhead : (spaced lines rest).head?.any continuesIdentifier =
        rest.head?.any continuesIdentifier := by
      rw [head?_spaced, Option.any_map]
      exact congrArg (Option.any · _) (funext (continuesIdentifier_spacedChar lines))
    rw [hhead]
    split
    · exact .none
    · exact .some rest (isOk_resolve raw raw' position ofType formula)
  cases hformula with
  | none => exact hend none after _ _
  | some rest heq =>
    subst heq
    exact hend _ rest _ _

end Positions

end TreeQuery
