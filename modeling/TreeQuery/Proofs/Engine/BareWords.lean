import TreeQuery.Compile.Compiler
import TreeQuery.Engine.Seed
import TreeQuery.Proofs.Selector.Margins
import TreeQuery.Proofs.Selector.Written.Scans

/-!
# Bare words

A bare query is one word, or one word after `#` or `.`, and is read as one token. So is such a word
in front of other tokens. A word may be so long that the library refuses the pattern for the class.
-/

namespace TreeQuery

lemma trimBlanks_eq_self {text : List Char} (h : ∀ c ∈ text, isBlank c = false) :
    trimBlanks text = text := by
  refine trimBlanks_eq_self_iff.mpr ⟨fun c hc => h c (List.mem_of_mem_head? hc), ?_⟩
  intro z d heq hd
  rw [h d (by simp [heq])] at hd
  cases hd

namespace Seed

def value : Seed → TokenValue
  | .id name => .id name
  | .tag name => .tag name
  | .className word => .className word

/-- Why the library refuses the pattern that a selector needs for a seed, if it does. -/
def refusal? [PatternLibrary] : Seed → Option String
  | .className word => PatternLibrary.refusal? ⟨word⟩
  | _ => none

def name : Seed → String
  | .id name => name
  | .tag name => name
  | .className word => word

def sigil : Seed → List Char
  | .id _ => ['#']
  | .tag _ => []
  | .className _ => ['.']

/-- A bare query is one word of word characters behind the sign of its seed. -/
theorem word_of_ofQuery {query : String} {seed : Seed} (h : ofQuery query = some seed) :
    trimBlanks query.toList = seed.sigil ++ seed.name.toList ∧ seed.name.toList ≠ [] ∧
      ∀ c ∈ seed.name.toList, isWordChar c = true := by
  have hword : ∀ {text : List Char} {make : String → Seed},
      (if text.isEmpty || !text.all isWordChar then none else some (String.ofList text)).map make =
        some seed → seed = make (String.ofList text) ∧ text ≠ [] ∧
          ∀ c ∈ text, isWordChar c = true := by
    intro text make heq
    by_cases hbad : (text.isEmpty || !text.all isWordChar) = true
    · rw [if_pos hbad] at heq
      exact nomatch heq
    · rw [if_neg hbad] at heq
      simp only [Bool.or_eq_true, not_or, List.isEmpty_iff, Bool.not_eq_true', Bool.not_eq_false,
        List.all_eq_true] at hbad
      exact ⟨(Option.some.inj heq).symm, hbad⟩
  unfold ofQuery at h
  dsimp only at h
  split at h
  · rename_i text heq
    obtain ⟨rfl, hne, hall⟩ := hword h
    exact ⟨by simp [heq, sigil, name], by simpa [name] using hne, by simpa [name] using hall⟩
  · rename_i text heq
    obtain ⟨rfl, hne, hall⟩ := hword h
    exact ⟨by simp [heq, sigil, name], by simpa [name] using hne, by simpa [name] using hall⟩
  · obtain ⟨rfl, hne, hall⟩ := hword h
    exact ⟨by simp [sigil, name], by simpa [name] using hne, by simpa [name] using hall⟩

lemma ne_star_of_ofQuery {query : String} {seed : Seed} (h : ofQuery query = some seed) :
    seed ≠ .tag "*" := by
  rintro rfl
  obtain ⟨-, -, hword⟩ := word_of_ofQuery h
  exact absurd (hword '*' (by decide)) (by decide)

section Reading

open Written

variable {word : List Char} (hword : ∀ c ∈ word, isWordChar c = true)
include hword

lemma spell_eq_self : spell false word = word := by
  induction word with
  | nil => rfl
  | cons c rest ih =>
    have hc : isWordChar c = true := hword c List.mem_cons_self
    rw [spell, ih fun d hd => hword d (List.mem_cons_of_mem c hd), escapeChar, hc]
    rfl

lemma nul_not_mem : '\x00' ∉ word := fun h => absurd (hword _ h) (by decide)

/-- One word of word characters behind a dot is a query for a class. -/
theorem ofQuery_className (hne : word ≠ []) :
    ofQuery (String.ofList ('.' :: word)) = some (.className (String.ofList word)) := by
  have htrim : trimBlanks ('.' :: word) = '.' :: word := by
    refine trimBlanks_eq_self fun c hc => ?_
    obtain rfl | hc := List.mem_cons.mp hc
    · rfl
    · exact isBlank_eq_false (by decide) (hword c hc)
  have hempty : word.isEmpty = false := by simpa using hne
  have hall : word.all isWordChar = true := List.all_eq_true.mpr hword
  rw [ofQuery, String.toList_ofList, htrim]
  simp [hempty, hall]

end Reading

section

variable {seed : Seed} {rest : List Char}

open Written in
/-- A word is read as one token where it ends. -/
theorem next_eq_token (hne : seed.name.toList ≠ [])
    (hword : ∀ c ∈ seed.name.toList, isWordChar c = true) (hrest : Boundary rest) :
    Lexeme.next false (seed.sigil ++ seed.name.toList ++ rest) = .token seed.value rest := by
  let word : Name := ⟨⟨seed.name.toList, nul_not_mem hword⟩, hne⟩
  have hspell : spell false word.chars = seed.name.toList := spell_eq_self hword
  have hblank : ∀ c, isWordChar c = true → isBlank c = false ∧ c ∉ [',', '>', '+', '~'] :=
    fun c hc => ⟨isBlank_eq_false (by decide) hc, not_mem_of_class (by decide) hc⟩
  cases seed with
  | id name =>
    have hread : simpleTest ('#' :: spell false word.chars ++ rest) = _ :=
      simpleTest_id word (by simp) hrest
    rw [hspell] at hread
    rw [sigil, List.singleton_append, List.cons_append, next_eq_simpleTest (by decide) (by decide),
      ← List.cons_append, hread]
    exact congrArg (Lexeme.token · rest) (congrArg TokenValue.id String.ofList_toList)
  | className name =>
    have hread : simpleTest ('.' :: spell false word.chars ++ rest) = _ :=
      simpleTest_class word (by simp) hrest
    rw [hspell] at hread
    rw [sigil, List.singleton_append, List.cons_append, next_eq_simpleTest (by decide) (by decide),
      ← List.cons_append, hread]
    exact congrArg (Lexeme.token · rest) (congrArg TokenValue.className String.ofList_toList)
  | tag name =>
    have hread : simpleTest (tagText false (some word) ++ rest) = _ :=
      simpleTest_tag (some word) (by simp) hrest
    rw [tagText, hspell] at hread
    rw [sigil, List.nil_append]
    obtain ⟨c, letters, heq⟩ := List.exists_cons_of_ne_nil hne
    obtain ⟨hc, hsign⟩ := hblank c (hword c (heq ▸ List.mem_cons_self))
    rw [heq, List.cons_append] at hread ⊢
    rw [next_eq_simpleTest hc hsign, hread]
    exact congrArg (Lexeme.token · rest) (congrArg TokenValue.tag String.ofList_toList)

lemma scan_word (hne : seed.name.toList ≠ [])
    (hword : ∀ c ∈ seed.name.toList, isWordChar c = true) (hrest : Written.Boundary rest) :
    scan false (seed.sigil ++ seed.name.toList ++ rest) =
      (scan true rest).cons ⟨String.ofList (seed.sigil ++ seed.name.toList), seed.value⟩ :=
  Written.scan_token (next_eq_token hne hword hrest)

end

lemma parse_of_ofQuery {query : String} {seed : Seed} (h : ofQuery query = some seed) :
    SelectorList.parse query = .ok ⟨String.ofList (seed.sigil ++ seed.name.toList),
      [[⟨String.ofList (seed.sigil ++ seed.name.toList), seed.value⟩]]⟩ := by
  obtain ⟨htrim, hne, hword⟩ := word_of_ofQuery h
  have hscan : scan false (trimBlanks query.toList) =
      .whole [⟨String.ofList (seed.sigil ++ seed.name.toList), seed.value⟩] := by
    rw [htrim, ← List.append_nil (_ ++ _), scan_word hne hword Written.boundary_nil, scan_nil,
      List.append_nil]
    rfl
  have hparse := SelectorList.parse_of_scan hscan (by simp [htrim, hne]) (by cases seed <;> rfl)
  rwa [htrim] at hparse

end Seed

/-- A word of so many letters. -/
def longWord (letters : Nat) : String := String.ofList (List.replicate letters 'a')

def longToken (letters : Nat) : Token := ⟨"." ++ longWord letters, .className (longWord letters)⟩

section

variable {letters : Nat}

lemma isWordChar_of_mem_longWord {c : Char} (h : c ∈ (longWord letters).toList) :
    isWordChar c = true := by
  rw [longWord, String.toList_ofList] at h
  obtain rfl := List.eq_of_mem_replicate h
  decide

lemma utf8ByteSize_longWord (letters : Nat) : (longWord letters).utf8ByteSize = letters := by
  induction letters with
  | zero => rfl
  | succ letters ih =>
    rw [longWord] at ih ⊢
    rw [List.replicate_succ, String.ofList_cons, String.utf8ByteSize_append, ih,
      String.utf8ByteSize_singleton, Nat.add_comm]
    rfl

/-- A word may be too long for the library. -/
theorem exists_refusal_longWord (h : 10 * 1024 * 1024 < 32 * (letters + 19)) :
    ∃ reason, PatternLibrary.standard.refusal? ⟨longWord letters⟩ = some reason :=
  ⟨_, if_pos (by rwa [utf8ByteSize_longWord])⟩

lemma toList_longWord_ne_nil (h : 0 < letters) : (longWord letters).toList ≠ [] := by
  rw [longWord, String.toList_ofList]
  exact List.ne_nil_of_length_pos (by rwa [List.length_replicate])

lemma ofQuery_longWord (h : 0 < letters) :
    Seed.ofQuery ("." ++ longWord letters) = some (.className (longWord letters)) := by
  have hquery := Seed.ofQuery_className (fun _ => isWordChar_of_mem_longWord)
    (toList_longWord_ne_nil h)
  rwa [String.ofList_cons, String.ofList_toList] at hquery

/-- A long class is read with the tokens behind it. -/
theorem parse_longWord (h : 0 < letters) {rest : String} {tokens : Clause}
    (hrest : Written.Boundary rest.toList) (hsolid : ∀ c ∈ rest.toList, isBlank c = false)
    (hscan : scan true rest.toList = .whole tokens)
    (hcheck : Clause.check (longToken letters :: tokens) = .ok ()) :
    SelectorList.parse ("." ++ longWord letters ++ rest) =
      .ok ⟨"." ++ longWord letters ++ rest, [longToken letters :: tokens]⟩ := by
  have htext : ("." ++ longWord letters ++ rest).toList =
      '.' :: (longWord letters).toList ++ rest.toList := by
    simp
  have htrim : trimBlanks ("." ++ longWord letters ++ rest).toList =
      ("." ++ longWord letters ++ rest).toList := by
    refine trimBlanks_eq_self fun c hc => ?_
    rw [htext, List.cons_append] at hc
    obtain rfl | hc := List.mem_cons.mp hc
    · rfl
    · obtain hc | hc := List.mem_append.mp hc
      · exact Written.isBlank_eq_false (by decide) (isWordChar_of_mem_longWord hc)
      · exact hsolid c hc
  have hword : scan false (trimBlanks ("." ++ longWord letters ++ rest).toList) =
      .whole (longToken letters :: tokens) := by
    have hfirst : scan false ('.' :: (longWord letters).toList ++ rest.toList) =
        (scan true rest.toList).cons ⟨String.ofList ('.' :: (longWord letters).toList),
          .className (longWord letters)⟩ :=
      @Seed.scan_word (.className (longWord letters)) _ (toList_longWord_ne_nil h)
        (fun _ => isWordChar_of_mem_longWord) hrest
    rw [htrim, htext, hfirst, hscan, String.ofList_cons, String.ofList_toList]
    rfl
  have hne : trimBlanks ("." ++ longWord letters ++ rest).toList ≠ [] := by
    rw [htrim, htext]
    exact List.cons_ne_nil _ _
  have hparse := SelectorList.parse_of_scan hword hne hcheck
  rwa [htrim, String.ofList_toList] at hparse

end

end TreeQuery
