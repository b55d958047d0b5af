import Mathlib.Data.Bool.AllAny
import Mathlib.Data.List.Forall2
import TreeQuery.Proofs.Selector.Tails.Positions

/-!
# Arguments of structural positions in every spelling

An argument is spelled by letters that fold to `even`, `odd` or `n`, with any signs, blanks and
decimal digits. It is read exactly where one is spelled, whatever text follows, and what is read is
told by the spelling alone.
-/

namespace TreeQuery

namespace Spelled

open Written

/-- Whether a character counts as an ASCII letter, or as a hyphen, when case is ignored. Besides the
letter in either case these are the long s and the sign for kelvin. -/
def Folds (c k : Char) : Prop :=
  c = k ∨ c = k.toUpper ∨ (k = 's' ∧ c = 'ſ') ∨ (k = 'k' ∧ c = '\u212a')

instance (c k : Char) : Decidable (Folds c k) := inferInstanceAs (Decidable (_ ∨ _))

/-- The letters of the keywords. -/
def alphabet : List Char :=
  ['-', 'a', 'c', 'd', 'e', 'f', 'h', 'i', 'l', 'n', 'o', 'p', 'r', 's', 't', 'v', 'y']

/-- The number before `n`, which may be missing. -/
structure Step where
  mark : Mark
  digits : List Char
  letter : Char
  decimal : ∀ d ∈ digits, isDecimalDigit d = true
  folds : Folds letter 'n'

/-- The number behind `n`, or the only one. Blanks may stand behind its sign. -/
structure Offset where
  mark : Mark
  gap : List Char
  digits : List Char
  blank : ∀ c ∈ gap, isBlank c = true
  decimal : ∀ d ∈ digits, isDecimalDigit d = true
  inhabited : digits ≠ []

/-- What stands between the parentheses, apart from the blanks beside them. -/
inductive Count where
  | even (word : List Char) (folds : List.Forall₂ Folds word ['e', 'v', 'e', 'n'])
  | odd (word : List Char) (folds : List.Forall₂ Folds word ['o', 'd', 'd'])
  | linear (step : Option Step) (gap : List Char) (blank : ∀ c ∈ gap, isBlank c = true)
    (offset : Option Offset)

structure Argument where
  front : List Char
  count : Count
  back : List Char
  front_blank : ∀ c ∈ front, isBlank c = true
  back_blank : ∀ c ∈ back, isBlank c = true

def Step.text (s : Step) : List Char := s.mark.text ++ (s.digits ++ [s.letter])

def Offset.text (o : Offset) : List Char := o.mark.text ++ (o.gap ++ o.digits)

def Count.text : Count → List Char
  | even word _ | odd word _ => word
  | linear step gap _ offset =>
    (step.map Step.text).getD [] ++ (gap ++ (offset.map Offset.text).getD [])

def Argument.text (a : Argument) : List Char :=
  '(' :: (a.front ++ (a.count.text ++ (a.back ++ [')'])))

/-- What is read of an argument. -/
def Count.formula : Count → Formula
  | even _ _ => .even
  | odd _ _ => .odd
  | linear step _ _ offset =>
    .linear (step.map fun s => (s.mark.negative, s.digits))
      (offset.map fun o => (o.mark.negative, o.digits))

end Spelled

section Letters

/-- On the letters of the keywords the folding is the one that Unicode prescribes. -/
theorem foldedLetter_eq_iff {c k : Char} (hk : k ∈ Spelled.alphabet) :
    foldedLetter c = k ↔ Spelled.Folds c k := by
  have hlow : ∀ n : Fin 128, Spelled.alphabet.all (fun k =>
      foldedLetter (Char.ofNat n) = k ↔ Spelled.Folds (Char.ofNat n) k) = true := by
    decide +kernel
  by_cases hc : c.toNat < 128
  · have hiff := List.all_iff_forall_prop.mp (hlow ⟨c.toNat, hc⟩) k hk
    simpa only [Char.ofNat_toNat] using hiff
  · have hascii : ∀ k ∈ Spelled.alphabet, k.toNat < 128 ∧ k.toUpper.toNat < 128 ∧ k ≠ 'k' :=
      List.all_iff_forall_prop.mp (by decide +kernel)
    obtain ⟨hsmall, hupper, hkelvin⟩ := hascii k hk
    have hlower : c ≠ k := fun h => hc (h ▸ hsmall)
    have hcapital : c ≠ k.toUpper := fun h => hc (h ▸ hupper)
    have hself : c.toLower = c := by
      refine dif_neg fun hcapital => ?_
      have hle : c.toNat ≤ 90 := by simpa [UInt32.le_iff_toNat_le] using hcapital.2
      exact hc (by omega)
    by_cases hs : c = 'ſ'
    · rw [foldedLetter, if_pos hs]
      refine ⟨fun h => .inr (.inr (.inl ⟨h.symm, hs⟩)), ?_⟩
      rintro (h | h | ⟨h, -⟩ | ⟨h, -⟩)
      · exact absurd h hlower
      · exact absurd h hcapital
      · exact h.symm
      · exact absurd h hkelvin
    · rw [foldedLetter, if_neg hs, hself, Spelled.Folds]
      simp only [hlower, hcapital, hkelvin, hs, and_false, false_and, or_false]

lemma forall₂_folds_iff {letters word : List Char} (hword : word ⊆ Spelled.alphabet) :
    List.Forall₂ Spelled.Folds letters word ↔ letters.map foldedLetter = word := by
  induction word generalizing letters with
  | nil => simp
  | cons k word ih =>
    obtain ⟨hk, hword⟩ := List.cons_subset.mp hword
    cases letters with
    | nil => simp
    | cons c letters =>
      rw [List.forall₂_cons, List.map_cons, List.cons.injEq, foldedLetter_eq_iff hk, ih hword]

lemma afterKeyword?_eq_some_iff {word text after : List Char} :
    afterKeyword? word text = some after ↔
      ∃ letters, text = letters ++ after ∧ letters.map foldedLetter = word := by
  induction word generalizing text with
  | nil => simp [afterKeyword?]
  | cons k word ih =>
    cases text with
    | nil => simp [afterKeyword?]
    | cons c text =>
      rw [afterKeyword?]
      constructor
      · intro h
        by_cases hc : foldedLetter c = k
        · rw [if_pos hc] at h
          obtain ⟨letters, rfl, rfl⟩ := ih.mp h
          exact ⟨c :: letters, rfl, by rw [List.map_cons, hc]⟩
        · rw [if_neg hc] at h
          cases h
      · rintro ⟨_ | ⟨d, letters⟩, htext, hletters⟩
        · cases hletters
        · obtain ⟨rfl, rfl⟩ := List.cons.inj htext
          obtain ⟨hc, hletters⟩ := List.cons.inj hletters
          rw [if_pos hc]
          exact ih.mpr ⟨letters, rfl, hletters⟩

end Letters

section Numbers

open Written

/-- What holds of every character of a run holds of the one that stands first. -/
theorem forall_head?_append {p : Char → Prop} {run rest : List Char} (hrun : ∀ c ∈ run, p c)
    (hrest : run = [] → ∀ c ∈ rest.head?, p c) : ∀ c ∈ (run ++ rest).head?, p c := by
  cases run with
  | nil => exact hrest rfl
  | cons b run =>
    rintro c ⟨⟩
    exact hrun b List.mem_cons_self

/-- A scan over digits goes up to the first character that is none. -/
theorem span_decimal {digits : List Char} (hdigits : ∀ d ∈ digits, isDecimalDigit d = true)
    {rest : List Char} (hrest : ∀ c ∈ rest.head?, isDecimalDigit c = false) :
    (digits ++ rest).takeWhile isDecimalDigit = digits ∧
      (digits ++ rest).dropWhile isDecimalDigit = rest := by
  rw [List.takeWhile_append_of_pos hdigits, List.dropWhile_append_of_pos hdigits]
  cases rest with
  | nil => simp
  | cons c rest => simp [hrest c rfl]

lemma dropBlanks_append_left {blanks rest : List Char} (hblanks : ∀ c ∈ blanks, isBlank c = true)
    (hrest : ∀ c ∈ rest.head?, isBlank c = false) : dropBlanks (blanks ++ rest) = rest := by
  rw [dropBlanks, List.dropWhile_append_of_pos hblanks]
  cases rest with
  | nil => rfl
  | cons c rest => simp [hrest c rfl]

lemma splitSign_eq (text : List Char) :
    ∃ m : Mark, text = m.text ++ (splitSign text).2 ∧ (splitSign text).1 = m.negative := by
  unfold splitSign
  split
  · exact ⟨.minus, rfl, rfl⟩
  · exact ⟨.plus, rfl, rfl⟩
  · exact ⟨.none, rfl, rfl⟩

lemma splitSign_append (m : Mark) {rest : List Char}
    (hrest : ∀ c ∈ rest.head?, c ≠ '-' ∧ c ≠ '+') :
    splitSign (m.text ++ rest) = (m.negative, rest) := by
  cases rest with
  | nil => cases m <;> rfl
  | cons c rest => exact splitSign_text m (hrest c rfl).1 (hrest c rfl).2 rest

/-- A blank is nothing else that an argument may start with. -/
theorem blank_facts {c : Char} (hc : isBlank c = true) :
    isDecimalDigit c = false ∧ c ≠ '-' ∧ c ≠ '+' ∧ foldedLetter c ∉ ['n', 'e', 'o'] := by
  have hblank : ∀ d ∈ [' ', '\t', '\r', '\n', '\x0c'],
      isDecimalDigit d = false ∧ d ≠ '-' ∧ d ≠ '+' ∧ foldedLetter d ∉ ['n', 'e', 'o'] :=
    List.all_iff_forall_prop.mp (by decide +kernel)
  exact hblank c (by simpa [isBlank, or_assoc] using hc)

/-- A decimal digit of any script is nothing else that an argument may start with. -/
theorem decimal_facts {c : Char} (hc : isDecimalDigit c = true) :
    isBlank c = false ∧ c ≠ '-' ∧ c ≠ '+' ∧ foldedLetter c ∉ ['n', 'e', 'o'] := by
  have hne : ∀ {d : Char}, isDecimalDigit d = false → c ≠ d := by
    rintro d hd rfl
    exact absurd (hc.symm.trans hd) (by decide)
  refine ⟨?_, hne (by decide +kernel), hne (by decide +kernel), fun hmem => ?_⟩
  · rw [Bool.eq_false_iff]
    exact fun hblank => hne (blank_facts hblank).1 rfl
  · have hletters : ∀ k ∈ ['n', 'e', 'o'], k ∈ Spelled.alphabet ∧ isDecimalDigit k = false ∧
        isDecimalDigit k.toUpper = false ∧ k ≠ 's' ∧ k ≠ 'k' :=
      List.all_iff_forall_prop.mp (by decide +kernel)
    obtain ⟨hk, hlower, hupper, hlong, hkelvin⟩ := hletters _ hmem
    obtain h | h | ⟨h, -⟩ | ⟨h, -⟩ := (foldedLetter_eq_iff hk).mp rfl
    · exact hne hlower h
    · exact hne hupper h
    · exact hlong h
    · exact hkelvin h

end Numbers

namespace Spelled

open Written

lemma Step.foldedLetter_letter (s : Step) : foldedLetter s.letter = 'n' :=
  (foldedLetter_eq_iff (by decide)).mpr s.folds

/-- What folds to `n` is no digit and no sign. -/
theorem letter_facts {c : Char} (hc : foldedLetter c = 'n') :
    isDecimalDigit c = false ∧ c ≠ '-' ∧ c ≠ '+' := by
  refine ⟨?_, ?_, ?_⟩
  · rw [Bool.eq_false_iff]
    exact fun h => (decimal_facts h).2.2.2 (by simp [hc])
  · rintro rfl
    exact absurd hc (by decide)
  · rintro rfl
    exact absurd hc (by decide)

lemma Step.step?_text (s : Step) (rest : List Char) :
    step? (s.text ++ rest) = some ((s.mark.negative, s.digits), rest) := by
  obtain ⟨hletter, hminus, hplus⟩ := letter_facts s.foldedLetter_letter
  obtain ⟨htake, hdrop⟩ := @span_decimal _ s.decimal (s.letter :: rest) (by simpa using hletter)
  have hsign : splitSign (s.mark.text ++ (s.digits ++ s.letter :: rest)) =
      (s.mark.negative, s.digits ++ s.letter :: rest) := by
    refine splitSign_append s.mark (forall_head?_append (fun d hd => ?_) fun _ => ?_)
    · obtain ⟨-, hminus, hplus, -⟩ := decimal_facts (s.decimal d hd)
      exact ⟨hminus, hplus⟩
    · simpa using ⟨hminus, hplus⟩
  rw [Step.text, List.append_assoc, List.append_assoc, List.singleton_append, step?, hsign]
  simp only [htake, hdrop, s.foldedLetter_letter, if_true]

lemma exists_step {text rest digits : List Char} {negative : Bool}
    (h : step? text = some ((negative, digits), rest)) :
    ∃ s : Step, text = s.text ++ rest ∧ s.mark.negative = negative ∧ s.digits = digits := by
  obtain ⟨m, htext, hsign⟩ := splitSign_eq text
  unfold step? at h
  simp only at h
  split at h
  · rename_i c after hdrop
    split at h
    · rename_i hc
      simp only [Option.some.injEq, Prod.mk.injEq] at h
      obtain ⟨⟨rfl, rfl⟩, rfl⟩ := h
      refine ⟨⟨m, (splitSign text).2.takeWhile isDecimalDigit, c,
        fun d hd => List.mem_takeWhile_imp hd, (foldedLetter_eq_iff (by decide)).mp hc⟩, ?_,
        hsign.symm, rfl⟩
      rw [Step.text, List.append_assoc, List.append_assoc, List.singleton_append, ← hdrop,
        List.takeWhile_append_dropWhile]
      exact htext
    · exact nomatch h
  · exact nomatch h

/-- Behind the sign stand blanks and digits only. -/
theorem Offset.head_facts (o : Offset) (rest : List Char) :
    ∀ c ∈ (o.gap ++ (o.digits ++ rest)).head?, c ≠ '-' ∧ c ≠ '+' := by
  refine forall_head?_append (fun b hb => ?_) fun _ => forall_head?_append (fun d hd => ?_)
    fun hnil => absurd hnil o.inhabited
  · obtain ⟨-, hminus, hplus, -⟩ := blank_facts (o.blank b hb)
    exact ⟨hminus, hplus⟩
  · obtain ⟨-, hminus, hplus, -⟩ := decimal_facts (o.decimal d hd)
    exact ⟨hminus, hplus⟩

lemma Offset.splitSign_text (o : Offset) (rest : List Char) :
    splitSign (o.text ++ rest) = (o.mark.negative, o.gap ++ (o.digits ++ rest)) := by
  rw [Offset.text, List.append_assoc, List.append_assoc]
  exact splitSign_append o.mark (o.head_facts rest)

lemma Offset.offset?_text (o : Offset) {rest : List Char}
    (hrest : ∀ c ∈ rest.head?, isDecimalDigit c = false) :
    offset? (o.text ++ rest) = some ((o.mark.negative, o.digits), rest) := by
  obtain ⟨d, digits, hdigits⟩ := List.exists_cons_of_ne_nil o.inhabited
  obtain ⟨htake, hdrop⟩ := span_decimal o.decimal hrest
  have hblanks : dropBlanks (o.gap ++ (o.digits ++ rest)) = o.digits ++ rest :=
    dropBlanks_append_left o.blank (forall_head?_append
      (fun d hd => (decimal_facts (o.decimal d hd)).1) fun hnil => absurd hnil o.inhabited)
  rw [offset?, o.splitSign_text]
  simp only [hblanks, htake, hdrop]
  rw [hdigits]

lemma exists_offset {text rest digits : List Char} {negative : Bool}
    (h : offset? text = some ((negative, digits), rest)) :
    ∃ o : Offset, text = o.text ++ rest ∧ o.mark.negative = negative ∧ o.digits = digits := by
  obtain ⟨m, htext, hsign⟩ := splitSign_eq text
  unfold offset? at h
  simp only at h
  split at h
  · exact nomatch h
  · rename_i hne
    simp only [Option.some.injEq, Prod.mk.injEq] at h
    obtain ⟨⟨rfl, rfl⟩, rfl⟩ := h
    refine ⟨⟨m, (splitSign text).2.takeWhile isBlank,
      (dropBlanks (splitSign text).2).takeWhile isDecimalDigit,
      fun d hd => List.mem_takeWhile_imp hd, fun d hd => List.mem_takeWhile_imp hd, hne⟩, ?_,
      hsign.symm, rfl⟩
    rw [Offset.text, List.append_assoc, List.append_assoc, List.takeWhile_append_dropWhile]
    exact htext.trans (congrArg (m.text ++ ·) List.takeWhile_append_dropWhile.symm)

/-- The number behind `n` is not taken for the one before it. -/
theorem Offset.step?_text (o : Offset) {rest : List Char}
    (hrest : ∀ c ∈ rest.head?, isDecimalDigit c = false ∧ foldedLetter c ≠ 'n') :
    step? (o.text ++ rest) = none := by
  rw [step?, o.splitSign_text]
  dsimp only
  cases hgap : o.gap with
  | cons b gap =>
    obtain ⟨hdigit, -, -, hn⟩ := blank_facts (o.blank b (hgap ▸ List.mem_cons_self))
    rw [List.cons_append, List.dropWhile_cons_of_neg (by simp [hdigit])]
    exact if_neg fun h => hn (by simp [h])
  | nil =>
    rw [List.nil_append, (span_decimal o.decimal fun c hc => (hrest c hc).1).2]
    cases rest with
    | nil => rfl
    | cons c rest => exact if_neg (hrest c rfl).2

/-- Whether a text starts with a character that is no blank and no letter of `even` and `odd`. -/
def Opens (text : List Char) : Prop :=
  ∃ c rest, text = c :: rest ∧ isBlank c = false ∧ foldedLetter c ≠ 'e' ∧ foldedLetter c ≠ 'o'

lemma opens_of_decimal {d : Char} (hd : isDecimalDigit d = true) (rest : List Char) :
    Opens (d :: rest) := by
  obtain ⟨hblank, -, -, hletters⟩ := decimal_facts hd
  exact ⟨d, rest, rfl, hblank, fun h => hletters (by simp [h]), fun h => hletters (by simp [h])⟩

lemma opens_mark {m : Mark} {rest : List Char} (hrest : m = .none → Opens rest) :
    Opens (m.text ++ rest) := by
  cases m with
  | none => exact hrest rfl
  | plus => exact ⟨'+', rest, rfl, by decide⟩
  | minus => exact ⟨'-', rest, rfl, by decide⟩

lemma Step.opens (s : Step) (rest : List Char) : Opens (s.text ++ rest) := by
  rw [Step.text, List.append_assoc, List.append_assoc]
  refine opens_mark fun _ => ?_
  cases hdigits : s.digits with
  | cons d digits => exact opens_of_decimal (s.decimal d (hdigits ▸ List.mem_cons_self)) _
  | nil =>
    have hletter := s.foldedLetter_letter
    refine ⟨s.letter, rest, rfl, ?_, by rw [hletter]; decide, by rw [hletter]; decide⟩
    rw [Bool.eq_false_iff]
    exact fun hblank => (blank_facts hblank).2.2.2 (by simp [hletter])

lemma dropBlanks_of_opens {blanks text : List Char} (hblanks : ∀ c ∈ blanks, isBlank c = true)
    (htext : Opens text) : dropBlanks (blanks ++ text) = text := by
  refine dropBlanks_append_left hblanks fun c hc => ?_
  obtain ⟨b, text, rfl, hblank, -⟩ := htext
  obtain rfl := Option.some.inj hc
  exact hblank

/-- Blanks in front of a number that has no sign can be counted to the blanks before it. -/
theorem Offset.exists_settled (o : Offset) {blanks : List Char}
    (hblanks : ∀ c ∈ blanks, isBlank c = true) (rest : List Char) :
    ∃ o' : Offset, dropBlanks (blanks ++ (o.text ++ rest)) = o'.text ++ rest ∧
      o'.mark = o.mark ∧ o'.digits = o.digits ∧ Opens (o'.text ++ rest) := by
  obtain ⟨d, digits, hdigits⟩ := List.exists_cons_of_ne_nil o.inhabited
  have hd : isDecimalDigit d = true := o.decimal d (hdigits ▸ List.mem_cons_self)
  by_cases hmark : o.mark = .none
  · have hopens : Opens (o.digits ++ rest) := hdigits ▸ opens_of_decimal hd _
    refine ⟨⟨.none, [], o.digits, nofun, o.decimal, o.inhabited⟩, ?_, hmark.symm, rfl, hopens⟩
    rw [Offset.text, hmark, Mark.text, List.nil_append, List.append_assoc, ← List.append_assoc]
    exact dropBlanks_of_opens (List.forall_mem_append.mpr ⟨hblanks, o.blank⟩) hopens
  · have hopens : Opens (o.text ++ rest) := by
      rw [Offset.text, List.append_assoc]
      exact opens_mark fun h => absurd h hmark
    exact ⟨o, dropBlanks_of_opens hblanks hopens, rfl, rfl, hopens⟩

section Ends

variable {back : List Char} (hback : ∀ c ∈ back, isBlank c = true) (rest : List Char)
include hback

lemma closeParenthesis?_text : closeParenthesis? (back ++ ')' :: rest) = some rest := by
  rw [closeParenthesis?, dropBlanks_append_left hback (by simp [isBlank])]
  rfl

lemma head_back : ∀ c ∈ (back ++ ')' :: rest).head?,
    isDecimalDigit c = false ∧ foldedLetter c ≠ 'n' := by
  refine forall_head?_append (fun b hb => ?_) fun _ => ?_
  · obtain ⟨hdigit, -, -, hletters⟩ := blank_facts (hback b hb)
    exact ⟨hdigit, fun h => hletters (by simp [h])⟩
  · rintro c ⟨⟩
    decide +kernel

/-- Behind the part with `n` the other part is read up to blanks and the parenthesis. -/
theorem linearFrom_text (step : Option (Bool × List Char)) {gap : List Char}
    (hgap : ∀ c ∈ gap, isBlank c = true) (offset : Option Offset) :
    ∃ back', (∀ c ∈ back', isBlank c = true) ∧
      linearFrom step (gap ++ ((offset.map Offset.text).getD [] ++ (back ++ ')' :: rest))) =
        (.linear step (offset.map fun o => (o.mark.negative, o.digits)), back' ++ ')' :: rest) := by
  cases offset with
  | some o =>
    obtain ⟨o', hdrop, hmark, hdigits, -⟩ := o.exists_settled hgap (back ++ ')' :: rest)
    refine ⟨back, hback, ?_⟩
    rw [Option.map_some, Option.getD_some, linearFrom, hdrop,
      o'.offset?_text fun c hc => (head_back hback rest c hc).1, hmark, hdigits]
    rfl
  | none =>
    refine ⟨[], nofun, ?_⟩
    have hdrop : dropBlanks (gap ++ (back ++ ')' :: rest)) = ')' :: rest := by
      rw [← List.append_assoc]
      exact dropBlanks_append_left (List.forall_mem_append.mpr ⟨hgap, hback⟩) (by simp [isBlank])
    rw [Option.map_none, Option.getD_none, List.nil_append, linearFrom, hdrop]
    rfl

lemma linear_text {front gap : List Char} (hfront : ∀ c ∈ front, isBlank c = true)
    (step : Option Step) (hgap : ∀ c ∈ gap, isBlank c = true) (offset : Option Offset) :
    ∃ text, dropBlanks (front ++ ((Count.linear step gap hgap offset).text ++
        (back ++ ')' :: rest))) = text ∧ Opens text ∧
      ∃ back', (∀ c ∈ back', isBlank c = true) ∧
        linear text = ((Count.linear step gap hgap offset).formula, back' ++ ')' :: rest) := by
  refine ⟨_, rfl, ?_⟩
  rw [Count.text, Count.formula, List.append_assoc, List.append_assoc]
  cases step with
  | some s =>
    rw [Option.map_some, Option.getD_some, dropBlanks_of_opens hfront (s.opens _), linear_eq,
      s.step?_text]
    exact ⟨s.opens _, linearFrom_text hback rest _ hgap offset⟩
  | none =>
    have hblanks : ∀ c ∈ front ++ gap, isBlank c = true :=
      List.forall_mem_append.mpr ⟨hfront, hgap⟩
    rw [Option.map_none, Option.getD_none, List.nil_append, ← List.append_assoc]
    cases offset with
    | some o =>
      obtain ⟨o', hdrop, hmark, hdigits, hopens⟩ := o.exists_settled hblanks (back ++ ')' :: rest)
      rw [Option.map_some, Option.getD_some, hdrop, linear_eq, o'.step?_text (head_back hback rest)]
      refine ⟨hopens, ?_⟩
      have hfrom := @linearFrom_text back hback rest none [] nofun (some o')
      rw [Option.map_some, Option.map_some, hmark, hdigits] at hfrom
      exact hfrom
    | none =>
      have hopens : Opens (')' :: rest) := ⟨')', rest, rfl, by decide⟩
      rw [Option.map_none, Option.getD_none, List.nil_append, ← List.append_assoc,
        dropBlanks_of_opens (List.forall_mem_append.mpr ⟨hblanks, hback⟩) hopens]
      exact ⟨hopens, [], nofun, rfl⟩

/-- A keyword is read as a formula up to the parenthesis. -/
theorem keywordFormula?_text {word letters : List Char} (hletters : letters.map foldedLetter = word)
    (formula : Formula) :
    keywordFormula? word formula (letters ++ (back ++ ')' :: rest)) = some (formula, rest) := by
  rw [keywordFormula?, afterKeyword?_eq_some_iff.mpr ⟨letters, rfl, hletters⟩, Option.bind_some,
    closeParenthesis?_text hback rest]
  rfl

end Ends

lemma keywordFormula?_eq_none {word text : List Char} {c k : Char} (formula : Formula)
    (hc : foldedLetter c ≠ k) : keywordFormula? (k :: word) formula (c :: text) = none := by
  rw [keywordFormula?, afterKeyword?, if_neg hc]
  rfl

/-- A keyword is read behind blanks, and its first letter tells it from the other one. -/
theorem keyword_head {front letters word : List Char} {k : Char} (hk : k ∈ ['n', 'e', 'o'])
    (hfront : ∀ c ∈ front, isBlank c = true) (hletters : letters.map foldedLetter = k :: word)
    (rest : List Char) :
    dropBlanks (front ++ (letters ++ rest)) = letters ++ rest ∧
      ∃ c more, letters = c :: more ∧ foldedLetter c = k := by
  obtain ⟨c, more, rfl⟩ : ∃ c more, letters = c :: more :=
    List.exists_cons_of_ne_nil (by rintro rfl; exact nomatch hletters)
  have hc : foldedLetter c = k := (List.cons.inj hletters).1
  refine ⟨dropBlanks_append_left hfront fun d hd => ?_, c, more, rfl, hc⟩
  obtain rfl := Option.some.inj hd
  rw [Bool.eq_false_iff]
  exact fun hblank => (blank_facts hblank).2.2.2 (hc ▸ hk)

/-- An argument is read as it is spelled. -/
theorem Argument.formula?_text (a : Argument) (rest : List Char) :
    formula? (a.text ++ rest) = some (a.count.formula, rest) := by
  have htext : a.text ++ rest =
      '(' :: (a.front ++ (a.count.text ++ (a.back ++ ')' :: rest))) := by
    simp [Argument.text]
  rw [htext, formula?_eq]
  cases hcount : a.count with
  | even word folds =>
    have hword := (forall₂_folds_iff (by decide)).mp folds
    obtain ⟨hdrop, -⟩ := keyword_head (by simp) a.front_blank hword (a.back ++ ')' :: rest)
    rw [Count.text, hdrop, keywordFormula?_text a.back_blank rest hword]
    rfl
  | odd word folds =>
    have hword := (forall₂_folds_iff (by decide)).mp folds
    obtain ⟨hdrop, c, more, rfl, hc⟩ :=
      keyword_head (by simp) a.front_blank hword (a.back ++ ')' :: rest)
    have heven : keywordFormula? ['e', 'v', 'e', 'n'] .even (c :: more ++ (a.back ++ ')' :: rest)) =
        none :=
      keywordFormula?_eq_none _ (by rw [hc]; decide)
    rw [Count.text, hdrop, heven, keywordFormula?_text a.back_blank rest hword]
    rfl
  | linear step gap blank offset =>
    obtain ⟨text, hdrop, ⟨c, inner, rfl, -, heven, hodd⟩, back', hback, hlinear⟩ :=
      linear_text a.back_blank rest a.front_blank step blank offset
    rw [hdrop, keywordFormula?_eq_none _ heven, keywordFormula?_eq_none _ hodd, hlinear,
      closeParenthesis?_text hback rest]
    rfl

lemma exists_blanks (text : List Char) :
    ∃ blanks, (∀ c ∈ blanks, isBlank c = true) ∧ text = blanks ++ dropBlanks text :=
  ⟨text.takeWhile isBlank, fun _ hc => List.mem_takeWhile_imp hc,
    List.takeWhile_append_dropWhile.symm⟩

lemma exists_back {text rest : List Char} (h : closeParenthesis? text = some rest) :
    ∃ back, (∀ c ∈ back, isBlank c = true) ∧ text = back ++ ')' :: rest := by
  obtain ⟨back, hback, htext⟩ := exists_blanks text
  unfold closeParenthesis? at h
  split at h
  · rename_i after hdrop
    obtain rfl := Option.some.inj h
    exact ⟨back, hback, hdrop ▸ htext⟩
  · exact nomatch h

lemma exists_keyword_letters {word text rest : List Char} {formula found : Formula}
    (h : keywordFormula? word formula text = some (found, rest)) :
    ∃ letters back, letters.map foldedLetter = word ∧ (∀ c ∈ back, isBlank c = true) ∧
      text = letters ++ (back ++ ')' :: rest) ∧ found = formula := by
  obtain ⟨after, hafter, hfound⟩ := Option.bind_eq_some_iff.mp h
  obtain ⟨rest', hclose, heq⟩ := Option.map_eq_some_iff.mp hfound
  obtain ⟨rfl, rfl⟩ := Prod.mk.inj heq
  obtain ⟨letters, rfl, hletters⟩ := afterKeyword?_eq_some_iff.mp hafter
  obtain ⟨back, hback, rfl⟩ := exists_back hclose
  exact ⟨letters, back, hletters, hback, rfl, rfl⟩

/-- What is read as `a n + b` is spelled so. -/
theorem exists_linear (text : List Char) :
    ∃ step gap, ∃ hgap : ∀ c ∈ gap, isBlank c = true, ∃ offset,
      text = (Count.linear step gap hgap offset).text ++ (linear text).2 ∧
        (linear text).1 = (Count.linear step gap hgap offset).formula := by
  have hfrom : ∀ (step : Option Step) (found : Option (Bool × List Char)) (text : List Char),
      found = step.map (fun s => (s.mark.negative, s.digits)) →
      ∃ gap, ∃ hgap : ∀ c ∈ gap, isBlank c = true, ∃ offset,
        (step.map Step.text).getD [] ++ text =
            (Count.linear step gap hgap offset).text ++ (linearFrom found text).2 ∧
          (linearFrom found text).1 = (Count.linear step gap hgap offset).formula := by
    rintro step found text rfl
    obtain ⟨gap, hgap, htext⟩ := exists_blanks text
    refine ⟨gap, hgap, ?_⟩
    unfold linearFrom
    cases hoffset : offset? (dropBlanks text) with
    | none =>
      refine ⟨none, ?_, rfl⟩
      rw [Count.text, Option.map_none, Option.getD_none, List.append_nil, List.append_assoc,
        ← htext]
    | some found =>
      obtain ⟨⟨negative, digits⟩, rest⟩ := found
      obtain ⟨o, hdrop, rfl, rfl⟩ := exists_offset hoffset
      refine ⟨some o, ?_, rfl⟩
      rw [Count.text, Option.map_some, Option.getD_some, List.append_assoc, List.append_assoc,
        ← hdrop, ← htext]
  rw [linear_eq]
  cases hstep : step? text with
  | none => exact ⟨none, hfrom none none text rfl⟩
  | some found =>
    obtain ⟨⟨negative, digits⟩, rest⟩ := found
    obtain ⟨s, rfl, rfl, rfl⟩ := exists_step hstep
    exact ⟨some s, hfrom (some s) _ rest rfl⟩

lemma exists_argument {text rest : List Char} {formula : Formula}
    (h : formula? text = some (formula, rest)) :
    ∃ a : Argument, text = a.text ++ rest ∧ formula = a.count.formula := by
  obtain ⟨inner, rfl⟩ : ∃ inner, text = '(' :: inner := by
    unfold formula? at h
    split at h
    · exact ⟨_, rfl⟩
    · exact nomatch h
  obtain ⟨front, hfront, hinner⟩ := exists_blanks inner
  have hbuild : ∀ (count : Count) (back : List Char), (∀ c ∈ back, isBlank c = true) →
      dropBlanks inner = count.text ++ (back ++ ')' :: rest) → formula = count.formula →
      ∃ a : Argument, '(' :: inner = a.text ++ rest ∧ formula = a.count.formula := by
    intro count back hback hdrop hformula
    refine ⟨⟨front, count, back, hfront, hback⟩, ?_, hformula⟩
    rw [hdrop] at hinner
    rw [hinner]
    simp [Argument.text]
  rw [formula?_eq] at h
  obtain heven | ⟨-, h⟩ := Option.or_eq_some_iff.mp h
  · obtain ⟨word, back, hword, hback, hdrop, rfl⟩ := exists_keyword_letters heven
    exact hbuild (.even word ((forall₂_folds_iff (by decide)).mpr hword)) back hback hdrop rfl
  obtain hodd | ⟨-, hlinear⟩ := Option.or_eq_some_iff.mp h
  · obtain ⟨word, back, hword, hback, hdrop, rfl⟩ := exists_keyword_letters hodd
    exact hbuild (.odd word ((forall₂_folds_iff (by decide)).mpr hword)) back hback hdrop rfl
  · obtain ⟨rest', hclose, heq⟩ := Option.map_eq_some_iff.mp hlinear
    obtain ⟨rfl, rfl⟩ := Prod.mk.inj heq
    obtain ⟨back, hback, hafter⟩ := exists_back hclose
    obtain ⟨step, gap, hgap, offset, htext, hformula⟩ := exists_linear (dropBlanks inner)
    exact hbuild (.linear step gap hgap offset) back hback (hafter ▸ htext) hformula

/-- An argument is read exactly where one is spelled. -/
theorem formula?_eq_some_iff {text rest : List Char} {formula : Formula} :
    formula? text = some (formula, rest) ↔
      ∃ a : Argument, text = a.text ++ rest ∧ formula = a.count.formula := by
  constructor
  · exact exists_argument
  · rintro ⟨a, rfl, rfl⟩
    exact a.formula?_text rest

end Spelled

end TreeQuery
