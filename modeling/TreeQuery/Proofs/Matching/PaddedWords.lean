import Mathlib.Data.Bool.AllAny
import Mathlib.Data.List.TFAE
import Mathlib.Tactic.TFAE
import TreeQuery.Proofs.Matching.Words
import TreeQuery.Selector.Bracket

/-!
# Readings of a class attribute

A word of a class attribute is found in three ways: by the pattern for a class, among the words
that an index keeps, and by a `~=` test, which looks for the word between two spaces in a text
where every blank has become a space. All three find the same words.
-/

namespace TreeQuery

/-- Whether a word stands in a text between blanks or the ends of the text. -/
def StandsIn (word text : List Char) : Prop :=
  ∃ before after, text = before ++ word ++ after ∧
    (∀ c ∈ before.getLast?, isBlank c = true) ∧ ∀ c ∈ after.head?, isBlank c = true

/-- What a `~=` test takes a character for. -/
def blankToSpace (c : Char) : Char := if isBlank c then ' ' else c

lemma occursIn_iff {part text : List Char} : occursIn part text = true ↔ part <:+: text := by
  induction text with
  | nil => simp [occursIn]
  | cons c text ih =>
    rw [occursIn, Bool.or_eq_true, ih, List.isPrefixOf_iff_prefix, List.infix_cons_iff]

section Patterns

variable {word : List Char}

lemma startsWithWord_iff_append {text : List Char} :
    startsWithWord word text = true ↔
      ∃ after, text = word ++ after ∧ ∀ c ∈ after.head?, isBlank c = true := by
  induction word generalizing text with
  | nil => cases text <;> simp [startsWithWord]
  | cons w word ih =>
    cases text with
    | nil => simp [startsWithWord]
    | cons c text =>
      simp only [startsWithWord, Bool.and_eq_true, beq_iff_eq, ih, List.cons_append,
        List.cons.injEq, and_assoc, exists_and_left, eq_comm (a := w)]

/-- The flag says that the word may stand at the very start. -/
theorem hasWord_iff_append {atStart : Bool} {text : List Char} :
    hasWord word atStart text = true ↔
      ∃ before after, text = before ++ word ++ after ∧ (before = [] → atStart = true) ∧
        (∀ c ∈ before.getLast?, isBlank c = true) ∧ ∀ c ∈ after.head?, isBlank c = true := by
  induction text generalizing atStart with
  | nil =>
    rw [hasWord, Bool.and_eq_true, startsWithWord_iff_append]
    constructor
    · rintro ⟨hstart, after, htext, hafter⟩
      exact ⟨[], after, htext, fun _ => hstart, by simp, hafter⟩
    · rintro ⟨before, after, htext, hstart, -, hafter⟩
      obtain ⟨hbefore, -⟩ := List.append_eq_nil_iff.mp htext.symm
      obtain ⟨rfl, -⟩ := List.append_eq_nil_iff.mp hbefore
      exact ⟨hstart rfl, after, htext, hafter⟩
  | cons b text ih =>
    rw [hasWord, Bool.or_eq_true, Bool.and_eq_true, startsWithWord_iff_append, ih]
    constructor
    · rintro (⟨hstart, after, htext, hafter⟩ | ⟨before, after, rfl, hblank, hbefore, hafter⟩)
      · exact ⟨[], after, htext, fun _ => hstart, by simp, hafter⟩
      · refine ⟨b :: before, after, rfl, (absurd · (List.cons_ne_nil b before)), fun c hc => ?_,
          hafter⟩
        cases before with
        | nil =>
          obtain rfl : b = c := by simpa using hc
          exact hblank rfl
        | cons d before => exact hbefore c (by simpa [List.getLast?_cons_cons] using hc)
    · rintro ⟨before, after, htext, hstart, hbefore, hafter⟩
      cases before with
      | nil => exact .inl ⟨hstart rfl, after, htext, hafter⟩
      | cons d before =>
        obtain ⟨rfl, rfl⟩ := List.cons.inj htext
        refine .inr ⟨before, after, rfl, fun hnil => ?_, fun c hc => ?_, hafter⟩
        · exact hbefore b (by simp [hnil])
        · exact hbefore c (by simp [List.getLast?_cons, Option.mem_def.mp hc])

lemma hasWord_iff_standsIn {text : List Char} :
    hasWord word true text = true ↔ StandsIn word text := by
  simp [hasWord_iff_append, StandsIn]

end Patterns

section Spaces

lemma eq_blankToSpace_iff {c k : Char} (hk : isBlank k = false) : k = blankToSpace c ↔ k = c := by
  by_cases hc : isBlank c = true
  · have hspace : k ≠ ' ' := by
      rintro rfl
      exact nomatch hk
    have hne : k ≠ c := by
      rintro rfl
      exact Bool.false_ne_true (hk.symm.trans hc)
    simp [blankToSpace, hc, hspace, hne]
  · simp [blankToSpace, hc]

lemma space_eq_blankToSpace_iff {c : Char} : ' ' = blankToSpace c ↔ isBlank c = true := by
  by_cases hc : isBlank c = true
  · simp [blankToSpace, hc]
  · have hne : ' ' ≠ c := by
      rintro rfl
      exact hc rfl
    simp [blankToSpace, hc, hne]

variable {word : List Char} (hword : ∀ c ∈ word, isBlank c = false)
include hword

lemma prefix_map_blankToSpace_iff {text : List Char} :
    word ++ [' '] <+: text.map blankToSpace ++ [' '] ↔ startsWithWord word text = true := by
  induction word generalizing text with
  | nil =>
    cases text with
    | nil => simp [startsWithWord]
    | cons c text => simp [startsWithWord, List.cons_prefix_cons, space_eq_blankToSpace_iff]
  | cons w word ih =>
    have hw := hword w List.mem_cons_self
    have hrest : ∀ c ∈ word, isBlank c = false := fun c hc => hword c (List.mem_cons_of_mem w hc)
    cases text with
    | nil => simp [startsWithWord, List.cons_prefix_cons]
    | cons c text =>
      simp only [List.cons_append, List.map_cons, List.cons_prefix_cons, eq_blankToSpace_iff hw,
        ih hrest, startsWithWord, Bool.and_eq_true, beq_iff_eq]

/-- Looking for a word between spaces is asking behind every blank whether the word follows. -/
theorem occursIn_map_blankToSpace (hne : word ≠ []) (b : Char) (text : List Char) :
    occursIn (' ' :: (word ++ [' '])) (blankToSpace b :: (text.map blankToSpace ++ [' '])) =
      hasWord word (isBlank b) text := by
  have hprefix : ∀ (b : Char) (text : List Char),
      (' ' :: (word ++ [' '])).isPrefixOf (blankToSpace b :: (text.map blankToSpace ++ [' '])) =
        (isBlank b && startsWithWord word text) := by
    intro b text
    rw [Bool.eq_iff_iff, List.isPrefixOf_iff_prefix, List.cons_prefix_cons,
      space_eq_blankToSpace_iff, prefix_map_blankToSpace_iff hword, Bool.and_eq_true]
  induction text generalizing b with
  | nil =>
    have hend : occursIn (' ' :: (word ++ [' '])) [' '] = false := by
      cases word with
      | nil => exact absurd rfl hne
      | cons w word => simp [occursIn]
    rw [occursIn, hprefix, hasWord, List.map_nil, List.nil_append, hend, Bool.or_false]
  | cons c text ih =>
    rw [occursIn, hprefix, hasWord, List.map_cons, List.cons_append, ih]

end Spaces

section Pieces

/-- Taking blanks for spaces is splitting at every blank and joining with spaces. -/
theorem intercalate_splitOnP (text : List Char) :
    [' '].intercalate (text.splitOnP isBlank) = text.map blankToSpace := by
  induction text with
  | nil => rfl
  | cons c text ih =>
    obtain ⟨piece, pieces, hsplit⟩ := List.exists_cons_of_ne_nil (List.splitOnP_ne_nil isBlank text)
    rw [List.splitOnP_cons_eq_if_modifyHead, List.map_cons, ← ih]
    by_cases hc : isBlank c = true
    · rw [if_pos hc, List.intercalate_cons_of_ne_nil (List.splitOnP_ne_nil _ _), blankToSpace,
        if_pos hc]
      rfl
    · rw [if_neg hc, hsplit, List.modifyHead_cons, blankToSpace, if_neg hc]
      cases pieces with
      | nil => simp
      | cons next pieces => simp

/-- The words of a text are the pieces between blanks that are not empty. -/
theorem blankWords_eq_filter (text : List Char) :
    blankWords text = (text.splitOnP isBlank).filter fun piece => !piece.isEmpty := by
  have hleading : ∀ text : List Char, ∃ pieces,
      text.splitOnP isBlank = (leadingWord text).1 :: pieces ∧
        (leadingWord text).2 = pieces.filter fun piece => !piece.isEmpty := by
    intro text
    induction text with
    | nil => exact ⟨[], rfl, rfl⟩
    | cons c text ih =>
      obtain ⟨pieces, hsplit, hlater⟩ := ih
      rw [List.splitOnP_cons_eq_if_modifyHead, hsplit]
      by_cases hc : isBlank c = true
      · refine ⟨(leadingWord text).1 :: pieces, by simp [leadingWord, hc], ?_⟩
        by_cases hempty : (leadingWord text).1 = []
        · simp [leadingWord, hc, hlater, hempty]
        · simp [leadingWord, hc, hlater, hempty]
      · exact ⟨pieces, by simp [leadingWord, hc], by simp [leadingWord, hc, hlater]⟩
  obtain ⟨pieces, hsplit, hlater⟩ := hleading text
  have hwords : blankWords text = if (leadingWord text).1.isEmpty then (leadingWord text).2
      else (leadingWord text).1 :: (leadingWord text).2 := rfl
  rw [hwords, hsplit, hlater]
  by_cases hempty : (leadingWord text).1 = []
  · simp [hempty]
  · simp [hempty]

end Pieces

/-- The value to check for stands between two spaces, as the blanks in the attribute do. -/
theorem AttributeTest.accepts_includes (name spelled : List Char) (value : String) :
    (ofSpelling name (some (.includes, spelled))).accepts (some value) =
      occursIn (' ' :: (unescape spelled ++ [' ']))
        (' ' :: (value.toList.map blankToSpace ++ [' '])) := by
  simp only [accepts, acceptsValue, ofSpelling, String.toList_append, String.toList_ofList]
  rfl

/-- The pattern for a class, the words that an index keeps and a `~=` test find the same words in a
class attribute, however the word is spelled in the test. -/
theorem ClassPattern.accepts_tfae {word value : String} {spelled : List Char}
    (hspelled : unescape spelled = word.toList) (hne : word ≠ "")
    (hword : ∀ c ∈ word.toList, isBlank c = false) :
    [(ClassPattern.mk word).accepts value = true,
      (blankWords value.toList).contains word.toList = true,
      (AttributeTest.ofSpelling ['c', 'l', 'a', 's', 's'] (some (.includes, spelled))).accepts
        (some value) = true,
      StandsIn word.toList value.toList,
      word.toList ∈ value.toList.splitOnP isBlank,
      ' ' :: (word.toList ++ [' ']) <:+:
        ' ' :: ([' '].intercalate (value.toList.splitOnP isBlank) ++ [' '])].TFAE := by
  have hchars : word.toList ≠ [] := by simpa using hne
  have hpattern : (ClassPattern.mk word).accepts value = true ↔
      StandsIn word.toList value.toList := hasWord_iff_standsIn
  have hindex : (blankWords value.toList).contains word.toList = true ↔
      word.toList ∈ value.toList.splitOnP isBlank := by
    rw [List.contains_iff_mem, blankWords_eq_filter]
    simp [hchars]
  have hpadded : occursIn (' ' :: (word.toList ++ [' ']))
      (' ' :: (value.toList.map blankToSpace ++ [' '])) = hasWord word.toList true value.toList :=
    occursIn_map_blankToSpace hword hchars ' ' value.toList
  tfae_have 1 ↔ 2 := by
    rw [List.contains_iff_mem]
    exact accepts_iff hchars hword
  tfae_have 1 ↔ 3 := by
    rw [AttributeTest.accepts_includes, hspelled, hpadded]
    rfl
  tfae_have 1 ↔ 4 := hpattern
  tfae_have 2 ↔ 5 := hindex
  tfae_have 3 ↔ 6 := by
    rw [AttributeTest.accepts_includes, hspelled, occursIn_iff, intercalate_splitOnP]
  tfae_finish

/-- A class of signs and a letter outside ASCII, behind repeated blanks of several kinds. -/
theorem ClassPattern.accepts_tfae_sample :
    let word := "a.b*é"
    let value := "a.b \t\n a.b*é\x0cc"
    let test := AttributeTest.ofSpelling ['c', 'l', 'a', 's', 's']
      (some (.includes, ['a', '\\', '.', 'b', '\\', '*', 'é']))
    unescape ['a', '\\', '.', 'b', '\\', '*', 'é'] = word.toList ∧ word ≠ "" ∧
      (∀ c ∈ word.toList, isBlank c = false) ∧
      ((ClassPattern.mk word).accepts value = true ↔
        (blankWords value.toList).contains word.toList = true) ∧
      ((ClassPattern.mk word).accepts value = true ↔ test.accepts (some value) = true) ∧
      (ClassPattern.mk word).accepts value = true := by
  intro word value test
  have hspelled : unescape ['a', '\\', '.', 'b', '\\', '*', 'é'] = word.toList := by
    decide +kernel
  have hne : word ≠ "" := by decide
  have hword : ∀ c ∈ word.toList, isBlank c = false :=
    List.all_iff_forall_prop.mp (by decide)
  have htfae := @ClassPattern.accepts_tfae word value _ hspelled hne hword
  exact ⟨hspelled, hne, hword, htfae.out 0 1, htfae.out 0 2, by decide +kernel⟩

end TreeQuery
