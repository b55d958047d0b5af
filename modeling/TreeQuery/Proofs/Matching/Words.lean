import Mathlib.Tactic.Lemma
import TreeQuery.Matching.Simple

/-!
# Words of a class attribute

The pattern for a class accepts an attribute if and only if the class is among its words, unless
blanks are part of the class. A class with a blank is no word of any attribute.
-/

namespace TreeQuery

lemma startsWithWord_iff {word : List Char} (hword : ∀ c ∈ word, isBlank c = false)
    (text : List Char) : startsWithWord word text = true ↔ (leadingWord text).1 = word := by
  induction word generalizing text with
  | nil =>
    cases text with
    | nil => simp [startsWithWord, leadingWord]
    | cons c text =>
      by_cases hc : isBlank c = true
      · simp [startsWithWord, leadingWord, hc]
      · simp [startsWithWord, leadingWord, hc]
  | cons w word ih =>
    have hw := hword w List.mem_cons_self
    have hrest : ∀ c ∈ word, isBlank c = false := fun c hc => hword c (List.mem_cons_of_mem w hc)
    cases text with
    | nil => simp [startsWithWord, leadingWord]
    | cons c text =>
      have htext := ih hrest text
      by_cases hc : isBlank c = true
      · have hne : w ≠ c := by
          rintro rfl
          simp [hw] at hc
        simp [startsWithWord, leadingWord, hc, hne]
      · simp only [startsWithWord, leadingWord, hc, Bool.and_eq_true, beq_iff_eq, htext,
          Bool.false_eq_true, if_false, List.cons.injEq, eq_comm (a := w)]

lemma hasWord_iff {word : List Char} (hne : word ≠ []) (hword : ∀ c ∈ word, isBlank c = false)
    (atStart : Bool) (text : List Char) :
    hasWord word atStart text = true ↔
      atStart = true ∧ (leadingWord text).1 = word ∨ word ∈ (leadingWord text).2 := by
  induction text generalizing atStart with
  | nil => simp [hasWord, startsWithWord_iff hword, leadingWord]
  | cons c text ih =>
    have hlater : word ∈ (leadingWord (c :: text)).2 ↔
        isBlank c = true ∧ (leadingWord text).1 = word ∨ word ∈ (leadingWord text).2 := by
      by_cases hc : isBlank c = true
      · by_cases hempty : (leadingWord text).1 = []
        · simp [leadingWord, hc, hempty, hne.symm]
        · simp [leadingWord, hc, hempty, eq_comm (a := word)]
      · simp [leadingWord, hc]
    rw [hlater]
    simp only [hasWord, Bool.or_eq_true, Bool.and_eq_true, startsWithWord_iff hword, ih]

/-- A class without blanks is accepted if it is a word of the attribute. -/
theorem ClassPattern.accepts_iff {word value : String} (hne : word.toList ≠ [])
    (hword : ∀ c ∈ word.toList, isBlank c = false) :
    (ClassPattern.mk word).accepts value = true ↔ word.toList ∈ blankWords value.toList := by
  rw [accepts, hasWord_iff hne hword, blankWords]
  by_cases hempty : (leadingWord value.toList).1 = []
  · simp [hempty, hne.symm]
  · simp [hempty, eq_comm (a := word.toList)]

lemma isBlank_of_mem_leadingWord (text : List Char) :
    (∀ c ∈ (leadingWord text).1, isBlank c = false) ∧
      ∀ word ∈ (leadingWord text).2, ∀ c ∈ word, isBlank c = false := by
  induction text with
  | nil => simp [leadingWord]
  | cons b text ih =>
    obtain ⟨hfirst, hlater⟩ := ih
    by_cases hb : isBlank b = true
    · by_cases hempty : (leadingWord text).1 = []
      · simpa [leadingWord, hb, hempty] using hlater
      · simpa [leadingWord, hb, hempty] using ⟨hfirst, hlater⟩
    · simp only [leadingWord, hb, Bool.false_eq_true, if_false, List.forall_mem_cons]
      exact ⟨⟨by simp, hfirst⟩, hlater⟩

lemma isBlank_of_mem_blankWords {text word : List Char} (hword : word ∈ blankWords text) :
    ∀ c ∈ word, isBlank c = false := by
  obtain ⟨hfirst, hlater⟩ := isBlank_of_mem_leadingWord text
  unfold blankWords at hword
  simp only at hword
  split at hword
  · exact hlater word hword
  · obtain rfl | hword := List.mem_cons.mp hword
    · exact hfirst
    · exact hlater word hword

end TreeQuery
