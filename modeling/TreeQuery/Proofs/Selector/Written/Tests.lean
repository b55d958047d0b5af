import TreeQuery.Proofs.Selector.Written.Passages

/-!
# Simple tests that are written and read

Each simple test is read as what it means, whatever comes behind it that does not go on with it.
-/

namespace TreeQuery

namespace Written

/-- Whether a text does not go on with a simple test in front of it. -/
def Boundary (rest : List Char) : Prop :=
  ∀ c ∈ rest.head?, continuesIdentifier c = false ∧ c ≠ '('

lemma boundary_nil : Boundary [] := by simp [Boundary]

lemma boundary_cons {c : Char} (rest : List Char) (hc : continuesIdentifier c = false)
    (hopen : c ≠ '(') : Boundary (c :: rest) := by
  rintro d ⟨⟩
  exact ⟨hc, hopen⟩

lemma identifierUnit?_eq_none {c : Char} {rest : List Char} (hc : continuesIdentifier c = false) :
    identifierUnit? (c :: rest) = none := by
  simp only [continuesIdentifier, Bool.or_eq_false_iff, beq_eq_false_iff_ne] at hc
  obtain ⟨⟨hword, hslash⟩, hascii⟩ := hc
  rw [identifierUnit?, if_neg hslash, hword, hascii]
  rfl

lemma Boundary.identifierUnit?_eq_none {rest : List Char} (h : Boundary rest) :
    identifierUnit? rest = none := by
  cases rest with
  | nil => rfl
  | cons c rest => exact Written.identifierUnit?_eq_none (h c rfl).1

lemma exists_spell_head (last : Bool) {chars : List Char} (hnul : '\x00' ∉ chars)
    (hne : chars ≠ []) : ∃ c text, spell last chars = c :: text ∧ continuesIdentifier c = true := by
  obtain ⟨c, chars, rfl⟩ := List.exists_cons_of_ne_nil hne
  have hc : c ≠ '\x00' := fun h => hnul (h ▸ List.mem_cons_self)
  rw [spell]
  obtain ⟨heq, -, hplain⟩ | ⟨-, digits, -, -, heq, -⟩ := escapeChar_cases (last && chars.isEmpty) hc
  · refine ⟨c, spell last chars, by rw [heq]; rfl, ?_⟩
    simp only [Bool.or_eq_true, Bool.not_eq_true'] at hplain
    simp only [continuesIdentifier, Bool.or_eq_true, Bool.not_eq_true']
    exact hplain.imp_left .inl
  · exact ⟨'\\', _, by rw [heq]; rfl, by decide⟩

section Starts

variable {c : Char} {text rest : List Char}

lemma separator?_eq_none (hdrop : dropBlanks text = c :: rest) (hc : c ∉ [',', '>', '+', '~']) :
    separator? text = none := by
  rw [separator?, hdrop]
  split
  · rename_i heq
    exact absurd (List.cons.inj heq).1 fun h => hc (by simp [h])
  · rfl

/-- Without a sign only blanks make a combinator. -/
theorem combinator?_unsigned (hdrop : dropBlanks text = c :: rest)
    (hc : c ∉ [',', '>', '+', '~']) :
    combinator? text =
      if (c :: rest).length < text.length then some (.descendant, c :: rest) else none := by
  rw [combinator?, hdrop]
  split
  · rename_i heq
    exact absurd (List.cons.inj heq).1 fun h => hc (by simp [h])
  · rename_i heq
    exact absurd (List.cons.inj heq).1 fun h => hc (by simp [h])
  · rename_i heq
    exact absurd (List.cons.inj heq).1 fun h => hc (by simp [h])
  · rfl

/-- What starts neither with a blank nor with a sign is read as a simple test. -/
theorem next_eq_simpleTest (hblank : isBlank c = false) (hsign : c ∉ [',', '>', '+', '~'])
    (afterToken : Bool) (text : List Char) :
    Lexeme.next afterToken (c :: text) = simpleTest (c :: text) := by
  have hdrop : dropBlanks (c :: text) = c :: text := by simp [dropBlanks, hblank]
  rw [Lexeme.next, combinator?_unsigned hdrop hsign, if_neg (Nat.lt_irrefl _)]
  cases afterToken <;> simp [separator?_eq_none hdrop hsign]

end Starts

variable {last : Bool} {rest : List Char}

lemma simpleTest_id (name : Name) (hlast : last = true → rest = []) (hrest : Boundary rest) :
    simpleTest ('#' :: spell last name.chars ++ rest) =
      .token (.id (String.ofList name.chars)) rest := by
  have hname := identifier?_spell name.noNul name.nonempty hlast hrest.identifierUnit?_eq_none
  simp [simpleTest, hname, unescape_spell name.noNul]

lemma simpleTest_class (name : Name) (hlast : last = true → rest = []) (hrest : Boundary rest) :
    simpleTest ('.' :: spell last name.chars ++ rest) =
      .token (.className (String.ofList name.chars)) rest := by
  have hname := identifier?_spell name.noNul name.nonempty hlast hrest.identifierUnit?_eq_none
  simp [simpleTest, hname, unescape_spell name.noNul]

lemma simpleTest_tag (tag : Option Name) (hlast : last = true → rest = [])
    (hrest : Boundary rest) :
    simpleTest (tagText last tag ++ rest) = .token (tagValue tag) rest := by
  cases tag with
  | none => rfl
  | some name =>
    have hname := identifier?_spell name.noNul name.nonempty hlast hrest.identifierUnit?_eq_none
    have hunescape : unescape (spell last name.chars) = name.chars := unescape_spell name.noNul
    obtain ⟨c, text, heq, hc⟩ := exists_spell_head last name.noNul name.nonempty
    have hsign : c ∉ ['*', '#', '.', '[', ':'] := not_mem_of_class (by decide) hc
    simp only [List.mem_cons, List.not_mem_nil, or_false, not_or] at hsign
    obtain ⟨hstar, hhash, hdot, hbracket, hcolon⟩ := hsign
    rw [tagText, tagValue]
    rw [heq] at hname hunescape ⊢
    rw [List.cons_append] at hname ⊢
    rw [simpleTest, if_neg hstar, if_neg hhash, if_neg hdot, if_neg hbracket, if_neg hcolon, hname]
    simp [hunescape]

lemma isBlank_of_continuesIdentifier {c : Char} (hc : continuesIdentifier c = true) :
    isBlank c = false :=
  isBlank_eq_false (by decide) hc

lemma dropBlanks_spell {chars : List Char} (hnul : '\x00' ∉ chars) (hne : chars ≠ [])
    (rest : List Char) : dropBlanks (spell last chars ++ rest) = spell last chars ++ rest := by
  obtain ⟨c, text, heq, hc⟩ := exists_spell_head last hnul hne
  rw [heq, List.cons_append, dropBlanks,
    List.dropWhile_cons_of_neg (by simp [isBlank_of_continuesIdentifier hc])]

lemma comparison?_text (operator : AttributeOperator) (value : Text) (rest : List Char) :
    comparison? (comparisonText (some (operator, value)) ++ rest) =
      some ((operator, spell false value.chars), ']' :: rest) := by
  have hbody := (harmless_spell false value.noNul).quotedBody?_eq (']' :: rest)
  have hvalue : checkValue? (dropBlanks ('"' :: (spell false value.chars ++ '"' :: ']' :: rest))) =
      some (spell false value.chars, ']' :: rest) := hbody
  have hoperator : attributeOperator? (dropBlanks (comparisonText (some (operator, value)) ++ rest)) =
      some (operator, '"' :: (spell false value.chars ++ '"' :: ']' :: rest)) := by
    have happ : comparisonText (some (operator, value)) ++ rest =
        operator.symbol.toList ++ '"' :: (spell false value.chars ++ '"' :: ']' :: rest) := by
      simp [comparisonText]
    rw [happ]
    cases operator <;> rfl
  simp [comparison?, hoperator, hvalue]

/-- An attribute test is read with its name, its operator and its value. -/
theorem attributeTest?_text (a : Attribute) (rest : List Char) :
    attributeTest? (a.text ++ rest) = some (a.test, rest) := by
  obtain ⟨name, comparison⟩ := a
  have hstop : identifierUnit? (comparisonText comparison ++ rest) = none := by
    cases comparison with
    | none => rfl
    | some compared =>
      obtain ⟨operator, value⟩ := compared
      cases operator <;> rfl
  have hname : identifier? (spell false name.chars ++ (comparisonText comparison ++ rest)) =
      some (spell false name.chars, comparisonText comparison ++ rest) :=
    identifier?_spell name.noNul name.nonempty (by simp) hstop
  have hunescape : unescape (spell false name.chars) = name.chars := unescape_spell name.noNul
  have hclose : closeBracket? (']' :: rest) = some rest := rfl
  rw [Attribute.text, List.append_assoc, List.cons_append, attributeTest?,
    dropBlanks_spell name.noNul name.nonempty, hname]
  cases comparison with
  | none =>
    have hnone : comparison? (']' :: rest) = none := rfl
    have htext : comparisonText none ++ rest = ']' :: rest := rfl
    simp [hnone, htext, hclose, AttributeTest.ofSpelling, hunescape, Attribute.test]
  | some compared =>
    obtain ⟨operator, value⟩ := compared
    have hvalue : unescape (spell false value.chars) = value.chars := unescape_spell value.noNul
    cases operator <;>
      simp [comparison?_text, hclose, AttributeTest.ofSpelling, hunescape, hvalue, Attribute.test]

lemma simpleTest_attribute (a : Attribute) (rest : List Char) :
    simpleTest (a.text ++ rest) = .token (.attribute a.test) rest := by
  have happ : a.text ++ rest =
      '[' :: (spell false a.name.chars ++ comparisonText a.comparison ++ rest) := rfl
  have hread := attributeTest?_text a rest
  rw [happ] at hread ⊢
  rw [simpleTest, if_neg (by decide), if_neg (by decide), if_neg (by decide), if_pos rfl, hread]

end Written

end TreeQuery
