import TreeQuery.Proofs.Selector.Written.Tests

/-!
# Structural positions that are written and read

The keyword of a position and its coefficients are read back. The name of a pseudo-class is not
taken for a position, however it is spelled.
-/

namespace TreeQuery

namespace Written

variable {last : Bool} {rest : List Char}

lemma structuralName?_text (position : Position) (ofType : Bool) (rest : List Char) :
    structuralName? (keyword position ++ kind ofType ++ rest) = some ((position, ofType), rest) := by
  cases position <;> cases ofType <;> rfl

lemma range_of_isDigit {c : Char} (hc : c.isDigit = true) : 48 ≤ c.toNat ∧ c.toNat ≤ 57 := by
  simpa [Char.isDigit, UInt32.le_iff_toNat_le] using hc

/-- An ASCII digit is a digit, and nothing else that a formula may start with. -/
theorem digit_facts {c : Char} (hc : c.isDigit = true) :
    isDecimalDigit c = true ∧ isBlank c = false ∧ c ≠ '-' ∧ c ≠ '+' ∧ foldedLetter c ≠ 'e' ∧
      foldedLetter c ≠ 'o' := by
  have hfacts : ∀ n : Fin 10, let d := Char.ofNat (48 + n)
      isDecimalDigit d = true ∧ isBlank d = false ∧ d ≠ '-' ∧ d ≠ '+' ∧ foldedLetter d ≠ 'e' ∧
        foldedLetter d ≠ 'o' := by
    decide +kernel
  have hrange := range_of_isDigit hc
  have hchar : Char.ofNat (48 + (c.toNat - 48)) = c := by
    rw [Nat.add_sub_cancel' hrange.1, Char.ofNat_toNat]
  have := hfacts ⟨c.toNat - 48, by omega⟩
  simpa only [hchar] using this

lemma isDigit_toDigits {n : Nat} : ∀ c ∈ Nat.toDigits 10 n, c.isDigit = true :=
  fun _ hc => Nat.isDigit_of_mem_toDigits (by decide) (by decide) hc

lemma exists_toDigits (n : Nat) : ∃ d digits, Nat.toDigits 10 n = d :: digits ∧
    d.isDigit = true := by
  obtain ⟨d, digits, heq⟩ := List.exists_cons_of_ne_nil (Nat.toDigits_ne_nil : Nat.toDigits 10 n ≠ [])
  exact ⟨d, digits, heq, isDigit_toDigits d (heq ▸ List.mem_cons_self)⟩

/-- A numeral is read if all its characters are ASCII digits. -/
theorem decimal?_eq {digits : List Char} (hne : digits ≠ []) :
    decimal? digits =
      if digits.all Char.isDigit then some (Nat.ofDigitChars 10 digits 0) else none := by
  have hfold : ∀ (digits : List Char) (start : Nat),
      digits.foldlM (fun n c => if c.isDigit then some (10 * n + (c.toNat - '0'.toNat)) else none)
        start =
      if digits.all Char.isDigit then some (Nat.ofDigitChars 10 digits start) else none := by
    intro digits
    induction digits with
    | nil => exact fun _ => rfl
    | cons d digits ih =>
      intro start
      rw [List.foldlM_cons]
      by_cases hd : d.isDigit = true
      · rw [if_pos hd, Option.bind_eq_bind, Option.bind_some, ih]
        rw [List.all_cons, hd, Bool.true_and]
        rfl
      · rw [if_neg hd, List.all_cons, Bool.eq_false_iff.mpr hd, Bool.false_and]
        rfl
  rw [decimal?, if_neg (by simpa using hne), hfold]

lemma decimal?_toDigits (n : Nat) : decimal? (Nat.toDigits 10 n) = some n := by
  rw [decimal?_eq Nat.toDigits_ne_nil, if_pos (List.all_eq_true.mpr isDigit_toDigits),
    Nat.ofDigitChars_toDigits (by decide) (by decide)]

lemma signedDigits?_text (m : Mark) (n : Numeral) :
    signedDigits? m.negative n.text = some (m.apply n.value) := by
  rw [signedDigits?, Numeral.text, decimal?_toDigits]
  change Option.map _ (Option.filter _ (some (n.value : Int))) = _
  rw [Option.filter_some, if_pos (decide_eq_true n.inRange)]
  rfl

/-- Digits are read up to what is no digit. -/
theorem span_digits {digits : List Char} (hdigits : ∀ d ∈ digits, d.isDigit = true) {c : Char}
    (hc : isDecimalDigit c = false) (rest : List Char) :
    (digits ++ c :: rest).takeWhile isDecimalDigit = digits ∧
      (digits ++ c :: rest).dropWhile isDecimalDigit = c :: rest := by
  have hdecimal : ∀ d ∈ digits, isDecimalDigit d = true :=
    fun d hd => (digit_facts (hdigits d hd)).1
  have hstop : ¬ isDecimalDigit c = true := by simp [hc]
  constructor
  · rw [List.takeWhile_append_of_pos hdecimal, List.takeWhile_cons_of_neg hstop, List.append_nil]
  · rw [List.dropWhile_append_of_pos hdecimal, List.dropWhile_cons_of_neg hstop]

lemma splitSign_text (m : Mark) {c : Char} (hminus : c ≠ '-') (hplus : c ≠ '+')
    (rest : List Char) : splitSign (m.text ++ c :: rest) = (m.negative, c :: rest) := by
  cases m with
  | none =>
    change splitSign (c :: rest) = (false, c :: rest)
    rw [splitSign]
    · exact fun _ h => hminus (List.cons.inj h).1
    · exact fun _ h => hplus (List.cons.inj h).1
  | plus => rfl
  | minus => rfl

lemma Step.isDigit_digits (s : Step) : ∀ c ∈ s.digits, c.isDigit = true := by
  obtain ⟨mark, number⟩ := s
  cases number with
  | none => exact nofun
  | some n => exact isDigit_toDigits

/-- The sign of a number is read before its first digit, or before what stands behind it. -/
theorem splitSign_digits (m : Mark) {digits : List Char}
    (hdigits : ∀ d ∈ digits, d.isDigit = true) {c : Char} (hminus : c ≠ '-') (hplus : c ≠ '+')
    (rest : List Char) :
    splitSign (m.text ++ (digits ++ c :: rest)) = (m.negative, digits ++ c :: rest) := by
  cases digits with
  | nil => exact splitSign_text m hminus hplus rest
  | cons d digits =>
    obtain ⟨-, -, hminus, hplus, -⟩ := digit_facts (hdigits d List.mem_cons_self)
    exact splitSign_text m hminus hplus _

lemma step?_text (s : Step) (rest : List Char) :
    step? (stepText (some s) ++ rest) = some ((s.mark.negative, s.digits), rest) := by
  obtain ⟨htake, hdrop⟩ := span_digits s.isDigit_digits (by decide : isDecimalDigit 'n' = false) rest
  have hsign := splitSign_digits s.mark s.isDigit_digits (by decide : 'n' ≠ '-')
    (by decide : 'n' ≠ '+') rest
  rw [stepText, List.append_assoc, List.append_assoc, List.singleton_append, step?, hsign]
  simp only [hdrop, htake]
  rfl

/-- Without the letter `n` there is no step. -/
theorem step?_eq_none (offset : Option Offset) (rest : List Char) :
    step? (offsetText offset ++ ')' :: rest) = none := by
  have hread : ∀ (m : Mark) (digits : List Char), (∀ d ∈ digits, d.isDigit = true) →
      step? (m.text ++ (digits ++ ')' :: rest)) = none := by
    intro m digits hdigits
    obtain ⟨-, hdrop⟩ := span_digits hdigits (by decide : isDecimalDigit ')' = false) rest
    have hsign := splitSign_digits m hdigits (by decide : ')' ≠ '-') (by decide : ')' ≠ '+') rest
    rw [step?, hsign]
    simp only [hdrop]
    rfl
  cases offset with
  | none => exact hread .none [] nofun
  | some o =>
    rw [offsetText, List.append_assoc]
    exact hread o.mark o.number.text isDigit_toDigits

lemma dropBlanks_digits (n : Numeral) (rest : List Char) :
    dropBlanks (n.text ++ rest) = n.text ++ rest := by
  obtain ⟨d, digits, heq, hd⟩ := exists_toDigits n.value
  rw [Numeral.text, heq, List.cons_append, dropBlanks,
    List.dropWhile_cons_of_neg (by simp [(digit_facts hd).2.1])]

lemma dropBlanks_offsetText (offset : Option Offset) (rest : List Char) :
    dropBlanks (offsetText offset ++ ')' :: rest) = offsetText offset ++ ')' :: rest := by
  cases offset with
  | none => rfl
  | some o =>
    obtain ⟨mark, number⟩ := o
    cases mark with
    | none => exact dropBlanks_digits number (')' :: rest)
    | plus => rfl
    | minus => rfl

lemma offset?_text (o : Offset) (rest : List Char) :
    offset? (offsetText (some o) ++ ')' :: rest) =
      some ((o.mark.negative, o.number.text), ')' :: rest) := by
  have hdigits : ∀ d ∈ o.number.text, d.isDigit = true := isDigit_toDigits
  obtain ⟨htake, hdrop⟩ := span_digits hdigits (by decide : isDecimalDigit ')' = false) rest
  have hsign := splitSign_digits o.mark hdigits (by decide : ')' ≠ '-') (by decide : ')' ≠ '+') rest
  obtain ⟨d, digits, heq, -⟩ := exists_toDigits o.number.value
  rw [offsetText, List.append_assoc, offset?, hsign]
  simp only [dropBlanks_digits, htake, hdrop]
  rw [Numeral.text, heq]

/-- The argument that is read of a count. -/
def Count.formula : Count → Formula
  | .even => .even
  | .odd => .odd
  | .linear step offset =>
    .linear (step.map fun s => (s.mark.negative, s.digits))
      (offset.map fun o => (o.mark.negative, o.number.text))

/-- The parts of a formula are resolved one by one. -/
theorem coefficients?_linear_eq (step offset : Option (Bool × List Char)) :
    Formula.coefficients? (.linear step offset) =
      (Formula.coefficients? (.linear step none)).bind fun (a, _) =>
        (Formula.coefficients? (.linear none offset)).map fun (_, b) => (a, b) := by
  have hpair : ∀ a b : Option Int, (a.bind fun a => b.bind fun b => some (a, b)) =
      (a.bind fun a => some (a, (0 : Int))).bind fun (a, _) =>
        (b.bind fun b => some ((0 : Int), b)).map fun (_, b) => (a, b) := by
    intro a b
    cases a <;> cases b <;> rfl
  obtain _ | ⟨sign, _ | ⟨d, digits⟩⟩ := step
  · obtain _ | ⟨sign, digits⟩ := offset
    · exact hpair (some 0) (some 0)
    · exact hpair (some 0) (signedDigits? sign digits)
  · obtain _ | ⟨sign', digits⟩ := offset
    · exact hpair (some (if sign then -1 else 1)) (some 0)
    · exact hpair (some (if sign then -1 else 1)) (signedDigits? sign' digits)
  · obtain _ | ⟨sign', digits'⟩ := offset
    · exact hpair (signedDigits? sign (d :: digits)) (some 0)
    · exact hpair (signedDigits? sign (d :: digits)) (signedDigits? sign' digits')

lemma coefficients?_linear {step offset : Option (Bool × List Char)} {a b : Int}
    (hstep : Formula.coefficients? (.linear step none) = some (a, 0))
    (hoffset : Formula.coefficients? (.linear none offset) = some (0, b)) :
    Formula.coefficients? (.linear step offset) = some (a, b) := by
  rw [coefficients?_linear_eq, hstep, hoffset]
  rfl

lemma Count.coefficients?_formula (c : Count) : c.formula.coefficients? = some c.coefficients := by
  cases c with
  | even => rfl
  | odd => rfl
  | linear step offset =>
    have hstep : Formula.coefficients? (.linear (step.map fun s => (s.mark.negative, s.digits)) none) =
        some ((step.map Step.value).getD 0, 0) := by
      cases step with
      | none => rfl
      | some s =>
        obtain ⟨mark, number⟩ := s
        cases number with
        | none => cases mark <;> rfl
        | some n =>
          obtain ⟨d, digits, heq, -⟩ := exists_toDigits n.value
          have hread := signedDigits?_text mark n
          rw [Numeral.text, heq] at hread
          simp [Formula.coefficients?, Step.digits, Numeral.text, heq, hread, Step.value]
    have hoffset : Formula.coefficients?
        (.linear none (offset.map fun o => (o.mark.negative, o.number.text))) =
          some (0, (offset.map Offset.value).getD 0) := by
      cases offset with
      | none => rfl
      | some o => simp [Formula.coefficients?, signedDigits?_text, Offset.value]
    exact coefficients?_linear hstep hoffset

lemma linear_text (step : Option Step) (offset : Option Offset) (rest : List Char) :
    linear (Count.text (.linear step offset) ++ ')' :: rest) =
      (Count.formula (.linear step offset), ')' :: rest) := by
  have hoffset : offset? (offsetText offset ++ ')' :: rest) =
      offset.map fun o => ((o.mark.negative, o.number.text), ')' :: rest) := by
    cases offset with
    | none => rfl
    | some o => exact offset?_text o rest
  have hstep : step? (Count.text (.linear step offset) ++ ')' :: rest) =
      step.map fun s => ((s.mark.negative, s.digits), offsetText offset ++ ')' :: rest) := by
    rw [Count.text, List.append_assoc]
    cases step with
    | none => exact step?_eq_none offset rest
    | some s => exact step?_text s _
  rw [linear, hstep]
  cases step with
  | none =>
    have hall : Count.text (.linear none offset) ++ ')' :: rest = offsetText offset ++ ')' :: rest :=
      rfl
    simp only [Option.map_none, hall, dropBlanks_offsetText, hoffset]
    cases offset <;> rfl
  | some s =>
    simp only [Option.map_some, dropBlanks_offsetText, hoffset]
    cases offset <;> rfl

lemma Count.exists_linear_head (step : Option Step) (offset : Option Offset) (rest : List Char) :
    ∃ c text, Count.text (.linear step offset) ++ ')' :: rest = c :: text ∧
      isBlank c = false ∧ foldedLetter c ≠ 'e' ∧ foldedLetter c ≠ 'o' := by
  have hsigned : ∀ (m : Mark) (digits : List Char), (∀ d ∈ digits, d.isDigit = true) →
      ∀ stop ∈ ['n', ')'], ∀ after, ∃ c text, m.text ++ (digits ++ stop :: after) = c :: text ∧
        isBlank c = false ∧ foldedLetter c ≠ 'e' ∧ foldedLetter c ≠ 'o' := by
    intro m digits hdigits stop hstop after
    cases m with
    | none =>
      cases digits with
      | nil =>
        refine ⟨stop, after, rfl, ?_⟩
        simp only [List.mem_cons, List.not_mem_nil, or_false] at hstop
        obtain rfl | rfl := hstop <;> decide
      | cons d digits =>
        obtain ⟨-, hblank, -, -, he, ho⟩ := digit_facts (hdigits d List.mem_cons_self)
        exact ⟨d, _, rfl, hblank, he, ho⟩
    | plus => exact ⟨'+', _, rfl, by decide⟩
    | minus => exact ⟨'-', _, rfl, by decide⟩
  cases step with
  | some s =>
    have hs := hsigned s.mark s.digits s.isDigit_digits 'n' (by simp)
      (offsetText offset ++ ')' :: rest)
    simpa [Count.text, stepText] using hs
  | none =>
    cases offset with
    | none => exact ⟨')', rest, rfl, by decide⟩
    | some o =>
      have ho := hsigned o.mark o.number.text isDigit_toDigits ')' (by simp) rest
      simpa [Count.text, stepText, offsetText] using ho

/-- The argument of a position is read to its end. -/
theorem formula?_text (c : Count) (rest : List Char) :
    formula? ('(' :: c.text ++ ')' :: rest) = some (c.formula, rest) := by
  cases c with
  | even => rfl
  | odd => rfl
  | linear step offset =>
    obtain ⟨c, text, heq, hblank, he, ho⟩ := Count.exists_linear_head step offset rest
    have hlinear := linear_text step offset rest
    have hclose : closeParenthesis? (')' :: rest) = some rest := rfl
    rw [heq] at hlinear
    have hdrop : dropBlanks (c :: text) = c :: text := by
      rw [dropBlanks, List.dropWhile_cons_of_neg (by simp [hblank])]
    have heven : afterKeyword? ['e', 'v', 'e', 'n'] (c :: text) = none := by
      rw [afterKeyword?, if_neg he]
    have hodd : afterKeyword? ['o', 'd', 'd'] (c :: text) = none := by
      rw [afterKeyword?, if_neg ho]
    rw [List.cons_append, heq, formula?]
    simp only [hdrop, heven, hodd, hlinear, hclose]
    rfl

lemma formula?_of_unopened (h : ∀ c ∈ rest.head?, c ≠ '(') : formula? rest = none := by
  unfold formula?
  split
  · exact absurd rfl (h '(' rfl)
  · rfl

lemma Boundary.formula?_eq_none (hrest : Boundary rest) : formula? rest = none :=
  formula?_of_unopened fun c hc => (hrest c hc).2

/-- What is read of the name of a position and of the argument behind it, if there is one. -/
theorem structural?_of_name {position : Position} {ofType : Bool} {after : List Char}
    {f : Option Formula} (hformula : formula? after = f.map fun g => (g, rest))
    (hnone : f = none → after = rest) (hrest : Boundary rest) :
    ∃ raw, structural? (':' :: (keyword position ++ kind ofType ++ after)) =
      some (StructuralPosition.resolve raw position ofType f, rest) := by
  have hstop : ¬ rest.head?.any continuesIdentifier = true := by
    cases rest with
    | nil => simp
    | cons c rest => simp [(hrest c rfl).1]
  refine ⟨String.ofList (':' :: before (keyword position ++ kind ofType ++ after) rest), ?_⟩
  rw [structural?, structuralName?_text]
  simp only [Option.bind_eq_bind, Option.bind_some, hformula]
  cases f with
  | none =>
    obtain rfl := hnone rfl
    rw [Option.map_none, if_neg hstop]
    rfl
  | some g =>
    rw [Option.map_some, if_neg hstop]
    rfl

/-- A structural position is read with its coefficients. -/
theorem structural?_text (p : Place) (hrest : Boundary rest) :
    structural? (p.text ++ rest) = some (.ok p.value, rest) := by
  cases p with
  | plain position hplain ofType =>
    obtain ⟨raw, hread⟩ : ∃ raw, structural? (':' :: (keyword position ++ kind ofType ++ rest)) =
        some (StructuralPosition.resolve raw position ofType none, rest) :=
      structural?_of_name hrest.formula?_eq_none (fun _ => rfl) hrest
    have hnot : ¬ (position = .nth ∨ position = .nthLast) := by simpa using hplain
    rw [Place.text, List.cons_append, List.cons_append, hread, StructuralPosition.resolve,
      if_neg hnot, Place.value]
  | counted fromEnd ofType count =>
    obtain ⟨raw, hread⟩ : ∃ raw, structural? (':' :: (keyword (counting fromEnd) ++ kind ofType ++
        ('(' :: count.text ++ ')' :: rest))) =
          some (StructuralPosition.resolve raw (counting fromEnd) ofType (some count.formula),
            rest) :=
      structural?_of_name (formula?_text count rest) nofun hrest
    have hcounts : counting fromEnd = .nth ∨ counting fromEnd = .nthLast := by
      cases fromEnd <;> simp [counting]
    simp only [Place.text, List.cons_append, List.append_assoc, List.nil_append] at hread ⊢
    rw [hread, StructuralPosition.resolve, if_pos hcounts, count.coefficients?_formula, Place.value]

lemma simpleTest_place (p : Place) (hrest : Boundary rest) :
    simpleTest (p.text ++ rest) = .token (.structural p.value) rest := by
  have happ : p.text ++ rest = ':' :: (p.text.tail ++ rest) := by cases p <;> rfl
  have hread := structural?_text p hrest
  rw [happ] at hread ⊢
  rw [simpleTest, if_neg (by decide), if_neg (by decide), if_neg (by decide), if_neg (by decide),
    if_pos rfl, hread]

lemma foldedLetter_of_stop {c : Char} (hc : continuesIdentifier c = false) :
    foldedLetter c = c := by
  have hlong : c ≠ 'ſ' := by
    rintro rfl
    exact absurd hc (by decide)
  have hupper : ¬ c.isUpper = true := by
    intro hupper
    have hword : isWordChar c = true := by
      unfold isWordChar Char.isAlphanum Char.isAlpha
      simp only [hupper, Bool.true_or]
    simp [continuesIdentifier, hword] at hc
  unfold Char.isUpper at hupper
  rw [decide_eq_true_eq] at hupper
  rw [foldedLetter, if_neg hlong]
  exact dif_neg hupper

/-- A keyword that is found in a name is found in its characters. -/
theorem afterKeyword?_spell {word : List Char} (hword : ∀ k ∈ word, isWordChar k = true)
    (hrest : ∀ c ∈ rest.head?, continuesIdentifier c = false) {after : List Char} :
    ∀ {chars : List Char}, '\x00' ∉ chars →
      afterKeyword? word (spell last chars ++ rest) = some after →
      ∃ p more, chars = p ++ more ∧ p.map foldedLetter = word ∧
        after = spell last more ++ rest := by
  induction word with
  | nil =>
    intro chars _ h
    exact ⟨[], chars, rfl, rfl, by simpa [afterKeyword?] using h.symm⟩
  | cons k word ih =>
    intro chars hnul h
    have hk : continuesIdentifier k = true := by
      simp [continuesIdentifier, hword k List.mem_cons_self]
    have hslash : k ≠ '\\' := by
      rintro rfl
      exact absurd (hword '\\' List.mem_cons_self) (by decide)
    cases chars with
    | nil =>
      rw [spell, List.nil_append] at h
      cases rest with
      | nil => simp [afterKeyword?] at h
      | cons c rest =>
        have hc := hrest c rfl
        rw [afterKeyword?, foldedLetter_of_stop hc] at h
        split at h
        · rename_i heq
          exact absurd hk (by simp [← heq, hc])
        · simp at h
    | cons c chars =>
      obtain ⟨hc, hchars⟩ : '\x00' ≠ c ∧ '\x00' ∉ chars := by simpa using hnul
      rw [spell] at h
      obtain ⟨heq, -⟩ | ⟨-, digits, -, -, heq, -⟩ :=
        escapeChar_cases (last && chars.isEmpty) hc.symm
      · rw [heq, List.append_assoc, List.singleton_append, afterKeyword?] at h
        split at h
        · rename_i hfold
          obtain ⟨p, more, rfl, hp, hafter⟩ :=
            ih (fun k hk => hword k (List.mem_cons_of_mem _ hk)) hchars h
          exact ⟨c :: p, more, rfl, by simp [hfold, hp], hafter⟩
        · simp at h
      · rw [heq, List.cons_append, List.cons_append, List.cons_append, afterKeyword?] at h
        rw [if_neg (fun hfold : foldedLetter '\\' = k => hslash (hfold.symm.trans (by decide)))] at h
        simp at h

lemma eq_keyword_of_mem {entry : List Char × Position} (h : entry ∈ Position.keywords) :
    entry = (keyword entry.2, entry.2) := by
  revert entry
  decide

lemma exists_keyword {entry : List Char × Position} (h : entry ∈ Position.keywords) :
    ∃ position, entry.1 = keyword position :=
  ⟨entry.2, congrArg Prod.fst (eq_keyword_of_mem h)⟩

lemma keyword_letters (position : Position) (ofType : Bool) :
    ∀ k ∈ keyword position ++ kind ofType, isWordChar k = true := by
  have hall : (keyword position ++ kind ofType).all isWordChar = true := by
    cases position <;> cases ofType <;> decide
  exact List.all_eq_true.mp hall

lemma siblingKind?_eq_some {text after : List Char} {ofType : Bool}
    (h : siblingKind? text = some (ofType, after)) :
    afterKeyword? (kind ofType) text = some after := by
  unfold siblingKind? at h
  split at h
  · rename_i heq
    obtain ⟨rfl, rfl⟩ := Prod.mk.inj (Option.some.inj h)
    exact heq
  · obtain ⟨_, heq, hpair⟩ := Option.map_eq_some_iff.mp h
    obtain ⟨rfl, rfl⟩ := Prod.mk.inj hpair
    exact heq

/-- Where the name of a position is found in the name of a pseudo-class, the latter goes on. -/
theorem structuralName?_spell (name : PseudoName)
    (hrest : ∀ c ∈ rest.head?, continuesIdentifier c = false) {found : (Position × Bool) × List Char}
    (h : structuralName? (spell last name.chars ++ rest) = some found) :
    ∃ c text, found.2 = c :: text ∧ continuesIdentifier c = true := by
  obtain ⟨entry, hentry, hk⟩ := List.exists_of_findSome?_eq_some h
  simp only [Option.bind_eq_bind, Option.bind_eq_some_iff, Option.pure_def, Option.some.injEq,
    Prod.exists] at hk
  obtain ⟨after, hafter, ofType, rest', hkind, rfl⟩ := hk
  obtain ⟨position, hposition⟩ := exists_keyword hentry
  rw [hposition] at hafter
  have hletters := keyword_letters position ofType
  obtain ⟨p, more, hchars, hp, rfl⟩ := afterKeyword?_spell
    (fun k hk => hletters k (List.mem_append_left _ hk)) hrest name.noNul hafter
  have hmore : '\x00' ∉ more := fun hmem => name.noNul (hchars ▸ List.mem_append_right p hmem)
  obtain ⟨q, left, rfl, hq, rfl⟩ := afterKeyword?_spell
    (fun k hk => hletters k (List.mem_append_right _ hk)) hrest hmore (siblingKind?_eq_some hkind)
  have hleft : left ≠ [] := by
    rintro rfl
    refine name.other position ofType ?_
    rw [hchars, List.append_nil, List.map_append, hp, hq]
  obtain ⟨c, text, heq, hc⟩ := exists_spell_head last
    (fun hmem => hmore (List.mem_append_right q hmem)) hleft
  exact ⟨c, text ++ rest, by rw [heq]; rfl, hc⟩

/-- The name of a pseudo-class is not read as that of a position. -/
theorem structural?_pseudoName (name : PseudoName)
    (hrest : ∀ c ∈ rest.head?, continuesIdentifier c = false) :
    structural? (':' :: spell last name.chars ++ rest) = none := by
  rw [List.cons_append, structural?]
  cases hname : structuralName? (spell last name.chars ++ rest) with
  | none => rfl
  | some found =>
    obtain ⟨⟨position, ofType⟩, after⟩ := found
    obtain ⟨c, text, rfl, hc⟩ := structuralName?_spell name hrest hname
    have hopen : c ≠ '(' := by
      rintro rfl
      exact absurd hc (by decide)
    have hformula : formula? (c :: text) = none := by
      unfold formula?
      split
      · rename_i heq
        exact absurd (List.cons.inj heq).1 hopen
      · rfl
    simp [hformula, hc]

end Written

end TreeQuery
