import TreeQuery.Proofs.Selector.Tails.Arguments

/-!
# Structural positions in front of a tail

Nothing in the argument of a structural position passes over a parenthesis, and no keyword goes on
behind a name. So a position is read, or not read, whatever tail follows.
-/

namespace TreeQuery

open Written

section Parts

/-- The offset behind a step, if there is one. -/
def linearFrom (step : Option (Bool × List Char)) (text : List Char) : Formula × List Char :=
  match offset? (dropBlanks text) with
  | some (offset, rest) => (.linear step (some offset), rest)
  | none => (.linear step none, dropBlanks text)

lemma linear_eq (text : List Char) :
    linear text = match step? text with
      | some (step, rest) => linearFrom (some step) rest
      | none => linearFrom none text := by
  unfold linear
  cases step? text <;> rfl

/-- A formula that is spelled by a keyword. -/
def keywordFormula? (word : List Char) (formula : Formula) (text : List Char) :
    Option (Formula × List Char) :=
  (afterKeyword? word text).bind fun after =>
    (closeParenthesis? after).map fun rest => (formula, rest)

lemma formula?_eq (text : List Char) :
    formula? ('(' :: text) = (keywordFormula? ['e', 'v', 'e', 'n'] .even (dropBlanks text)).or
      ((keywordFormula? ['o', 'd', 'd'] .odd (dropBlanks text)).or
        ((closeParenthesis? (linear (dropBlanks text)).2).map fun rest =>
          ((linear (dropBlanks text)).1, rest))) := by
  have hkeyword : ∀ word (formula : Formula) text, (do
      let after ← afterKeyword? word text
      let rest ← closeParenthesis? after
      return (formula, rest)) = keywordFormula? word formula text := by
    intro word formula text
    rw [keywordFormula?, Option.bind_eq_bind]
    congr 1
    funext after
    cases closeParenthesis? after <;> rfl
  rw [formula?]
  simp only [hkeyword]

end Parts

section Formulas

variable {x : List Char} (hx : ')' ∈ x) (t : List Char)
include hx

lemma dropBlanks_append_of_mem :
    dropBlanks (x ++ t) = dropBlanks x ++ t ∧ ')' ∈ dropBlanks x :=
  (span_append_of_mem (by decide) hx t).2

lemma afterKeyword?_append_of_mem {word : List Char} (hword : ')' ∉ word) :
    afterKeyword? word (x ++ t) = (afterKeyword? word x).map (· ++ t) ∧
      ∀ rest, afterKeyword? word x = some rest → ')' ∈ rest := by
  induction word generalizing x with
  | nil =>
    refine ⟨rfl, fun rest h => ?_⟩
    obtain rfl := Option.some.inj h
    exact hx
  | cons k word ih =>
    obtain ⟨hk, hword⟩ := not_or.mp (List.mem_cons.not.mp hword)
    cases x with
    | nil => exact absurd hx List.not_mem_nil
    | cons c x =>
      rw [List.cons_append, afterKeyword?, afterKeyword?]
      by_cases hc : foldedLetter c = k
      · have hne : ')' ≠ c := by
          rintro rfl
          exact hk (hc ▸ by decide)
        rw [if_pos hc, if_pos hc]
        exact ih (List.mem_of_ne_of_mem hne hx) hword
      · rw [if_neg hc, if_neg hc]
        exact ⟨rfl, by simp⟩

lemma closeParenthesis?_append_of_mem :
    closeParenthesis? (x ++ t) = (closeParenthesis? x).map (· ++ t) := by
  obtain ⟨happ, hmem⟩ := dropBlanks_append_of_mem hx t
  rw [closeParenthesis?, closeParenthesis?, happ]
  cases heq : dropBlanks x with
  | nil =>
    rw [heq] at hmem
    exact absurd hmem List.not_mem_nil
  | cons c rest =>
    by_cases hc : c = ')'
    · subst hc
      rfl
    · simp [hc]

lemma splitSign_append_of_mem :
    splitSign (x ++ t) = ((splitSign x).1, (splitSign x).2 ++ t) ∧ ')' ∈ (splitSign x).2 := by
  cases x with
  | nil => exact absurd hx List.not_mem_nil
  | cons c x =>
    by_cases hminus : c = '-'
    · subst hminus
      exact ⟨rfl, List.mem_of_ne_of_mem (by decide) hx⟩
    · by_cases hplus : c = '+'
      · subst hplus
        exact ⟨rfl, List.mem_of_ne_of_mem (by decide) hx⟩
      · have hother : ∀ rest, splitSign (c :: rest) = (false, c :: rest) := by
          intro rest
          unfold splitSign
          split
          · rename_i heq
            exact absurd (List.cons.inj heq).1 hminus
          · rename_i heq
            exact absurd (List.cons.inj heq).1 hplus
          · rfl
        rw [List.cons_append, hother, hother]
        exact ⟨rfl, hx⟩

lemma step?_append_of_mem :
    step? (x ++ t) = (step? x).map (fun (step, rest) => (step, rest ++ t)) ∧
      ∀ step rest, step? x = some (step, rest) → ')' ∈ rest := by
  obtain ⟨hsign, hrest⟩ := splitSign_append_of_mem hx t
  obtain ⟨htake, hdrop, hmem⟩ :=
    span_append_of_mem (f := isDecimalDigit) (by decide) hrest t
  unfold step?
  rw [hsign]
  dsimp only
  rw [htake, hdrop]
  cases heq : (splitSign x).2.dropWhile isDecimalDigit with
  | nil =>
    rw [heq] at hmem
    exact absurd hmem List.not_mem_nil
  | cons c rest =>
    rw [heq] at hmem
    rw [List.cons_append]
    dsimp only
    by_cases hc : foldedLetter c = 'n'
    · have hne : ')' ≠ c := by
        rintro rfl
        exact absurd hc (by decide)
      rw [if_pos hc, if_pos hc]
      refine ⟨rfl, fun step rest' h => ?_⟩
      obtain ⟨-, rfl⟩ := Prod.mk.inj (Option.some.inj h)
      exact List.mem_of_ne_of_mem hne hmem
    · rw [if_neg hc, if_neg hc]
      exact ⟨rfl, nofun⟩

lemma offset?_append_of_mem :
    offset? (x ++ t) = (offset? x).map (fun (offset, rest) => (offset, rest ++ t)) ∧
      ∀ offset rest, offset? x = some (offset, rest) → ')' ∈ rest := by
  obtain ⟨hsign, hrest⟩ := splitSign_append_of_mem hx t
  obtain ⟨hblank, hrest'⟩ := dropBlanks_append_of_mem hrest t
  obtain ⟨htake, hdrop, hmem⟩ :=
    span_append_of_mem (f := isDecimalDigit) (by decide) hrest' t
  unfold offset?
  rw [hsign]
  dsimp only
  rw [hblank, htake, hdrop]
  cases (dropBlanks (splitSign x).2).takeWhile isDecimalDigit with
  | nil => exact ⟨rfl, nofun⟩
  | cons d digits =>
    refine ⟨rfl, fun offset rest h => ?_⟩
    obtain ⟨-, rfl⟩ := Prod.mk.inj (Option.some.inj h)
    exact hmem

lemma linearFrom_append_of_mem (step : Option (Bool × List Char)) :
    linearFrom step (x ++ t) = ((linearFrom step x).1, (linearFrom step x).2 ++ t) ∧
      ')' ∈ (linearFrom step x).2 := by
  obtain ⟨hblank, hmem⟩ := dropBlanks_append_of_mem hx t
  obtain ⟨hoffset, hafter⟩ := offset?_append_of_mem hmem t
  unfold linearFrom
  rw [hblank, hoffset]
  cases hfound : offset? (dropBlanks x) with
  | none => exact ⟨rfl, hmem⟩
  | some found => exact ⟨rfl, hafter _ _ hfound⟩

lemma linear_append_of_mem :
    linear (x ++ t) = ((linear x).1, (linear x).2 ++ t) ∧ ')' ∈ (linear x).2 := by
  obtain ⟨hstep, hrest⟩ := step?_append_of_mem hx t
  rw [linear_eq, linear_eq, hstep]
  cases hfound : step? x with
  | none => exact linearFrom_append_of_mem hx t none
  | some found => exact linearFrom_append_of_mem (hrest _ _ hfound) t (some found.1)

lemma keywordFormula?_append_of_mem {word : List Char} (hword : ')' ∉ word) (formula : Formula) :
    keywordFormula? word formula (x ++ t) =
      (keywordFormula? word formula x).map fun (formula, rest) => (formula, rest ++ t) := by
  obtain ⟨happ, hmem⟩ := afterKeyword?_append_of_mem hx t hword
  rw [keywordFormula?, keywordFormula?, happ]
  cases hafter : afterKeyword? word x with
  | none => rfl
  | some after =>
    rw [Option.map_some, Option.bind_some, Option.bind_some,
      closeParenthesis?_append_of_mem (hmem after hafter) t, Option.map_map, Option.map_map]
    rfl

lemma formula?_append_of_mem :
    formula? (x ++ t) = (formula? x).map fun (formula, rest) => (formula, rest ++ t) := by
  cases x with
  | nil => exact absurd hx List.not_mem_nil
  | cons c x =>
    by_cases hc : c = '('
    · subst hc
      obtain ⟨hblank, hmem⟩ := dropBlanks_append_of_mem (List.mem_of_ne_of_mem (by decide) hx) t
      obtain ⟨hlinear, hafter⟩ := linear_append_of_mem hmem t
      rw [List.cons_append, formula?_eq, formula?_eq, hblank, hlinear,
        keywordFormula?_append_of_mem hmem t (by decide),
        keywordFormula?_append_of_mem hmem t (by decide),
        closeParenthesis?_append_of_mem hafter t, Option.map_or, Option.map_or, Option.map_map,
        Option.map_map]
      rfl
    · have hnone : ∀ rest, formula? (c :: rest) = none := by
        intro rest
        unfold formula?
        split
        · rename_i heq
          exact absurd (List.cons.inj heq).1 hc
        · rfl
      rw [List.cons_append, hnone, hnone, Option.map_none]

end Formulas

section Keywords

variable {word x t : List Char} (hword : ∀ k ∈ word, isWordChar k = true)
include hword

lemma afterKeyword?_append (ht : Boundary t) :
    afterKeyword? word (x ++ t) = (afterKeyword? word x).map (· ++ t) := by
  induction word generalizing x with
  | nil => rfl
  | cons k word ih =>
    cases x with
    | nil =>
      cases t with
      | nil => rfl
      | cons c t =>
        have hstop := (ht c rfl).1
        have hne : foldedLetter c ≠ k := by
          rw [foldedLetter_of_stop hstop]
          rintro rfl
          simp [continuesIdentifier, hword c List.mem_cons_self] at hstop
        have hnone : afterKeyword? (k :: word) (c :: t) = none := by rw [afterKeyword?, if_neg hne]
        rw [List.nil_append, hnone]
        rfl
    | cons c x =>
      rw [List.cons_append, afterKeyword?, afterKeyword?]
      split
      · exact ih fun k hk => hword k (List.mem_cons_of_mem _ hk)
      · rfl

/-- What is read as a keyword is part of a name without escapes. -/
theorem afterKeyword?_eq_some {after : List Char} (h : afterKeyword? word x = some after) :
    ∃ name, x = name ++ after ∧ name.length = word.length ∧
      ∀ c ∈ name, c ≠ '\\' ∧ (isWordChar c || !isAscii c) = true := by
  induction word generalizing x with
  | nil => exact ⟨[], Option.some.inj h, rfl, by simp⟩
  | cons k word ih =>
    cases x with
    | nil => cases h
    | cons c x =>
      rw [afterKeyword?] at h
      by_cases hc : foldedLetter c = k
      · rw [if_pos hc] at h
        obtain ⟨name, rfl, hlength, hname⟩ := ih (fun k hk => hword k (List.mem_cons_of_mem _ hk)) h
        have hk : isWordChar (foldedLetter c) = true := hc ▸ hword k List.mem_cons_self
        have hslash : c ≠ '\\' := by
          rintro rfl
          exact absurd hk (by decide)
        refine ⟨c :: name, rfl, congrArg (· + 1) hlength, fun d hd => ?_⟩
        obtain rfl | hd := List.mem_cons.mp hd
        · refine ⟨hslash, ?_⟩
          cases hstop : continuesIdentifier d with
          | true => simpa [continuesIdentifier, hslash] using hstop
          | false =>
            rw [foldedLetter_of_stop hstop] at hk
            rw [hk]
            rfl
        · exact hname d hd
      · rw [if_neg hc] at h
        cases h

end Keywords

section Names

variable {x t after : List Char}

lemma kind_letters (ofType : Bool) : ∀ k ∈ kind ofType, isWordChar k = true := fun k hk =>
  keyword_letters .first ofType k (List.mem_append_right _ hk)

lemma siblingKind?_eq (text : List Char) :
    siblingKind? text = match afterKeyword? (kind false) text with
      | some rest => some (false, rest)
      | none => (afterKeyword? (kind true) text).map fun rest => (true, rest) :=
  rfl

lemma siblingKind?_append (ht : Boundary t) :
    siblingKind? (x ++ t) = (siblingKind? x).map fun (ofType, rest) => (ofType, rest ++ t) := by
  rw [siblingKind?_eq, siblingKind?_eq, afterKeyword?_append (kind_letters false) ht,
    afterKeyword?_append (kind_letters true) ht]
  cases afterKeyword? (kind false) x with
  | none => cases afterKeyword? (kind true) x <;> rfl
  | some rest => rfl

/-- The name of a position that starts with a given keyword. -/
def nameFrom? (text : List Char) (entry : List Char × Position) :
    Option ((Position × Bool) × List Char) :=
  (afterKeyword? entry.1 text).bind fun after => (siblingKind? after).map fun (ofType, rest) =>
    ((.ofSpelling entry (text.take entry.1.length), ofType), rest)

lemma structuralName?_eq (text : List Char) :
    structuralName? text = Position.keywords.findSome? (nameFrom? text) := by
  unfold structuralName?
  congr 1
  funext entry
  unfold nameFrom?
  rw [Option.bind_eq_bind]
  congr 1
  funext after
  cases siblingKind? after <;> rfl

lemma word_of_keywords {entry : List Char × Position} (h : entry ∈ Position.keywords) :
    ∀ k ∈ entry.1, isWordChar k = true := by
  obtain ⟨position, heq⟩ := exists_keyword h
  intro k hk
  exact keyword_letters position false k (List.mem_append_left _ (heq ▸ hk))

lemma nameFrom?_append (ht : Boundary t) {entry : List Char × Position}
    (h : entry ∈ Position.keywords) :
    nameFrom? (x ++ t) entry = (nameFrom? x entry).map fun (name, rest) => (name, rest ++ t) := by
  have hword := word_of_keywords h
  rw [nameFrom?, nameFrom?, afterKeyword?_append hword ht]
  cases hafter : afterKeyword? entry.1 x with
  | none => rfl
  | some after =>
    obtain ⟨name, rfl, hlength, -⟩ := afterKeyword?_eq_some hword hafter
    rw [Option.map_some, Option.bind_some, Option.bind_some, siblingKind?_append ht, Option.map_map,
      Option.map_map, ← hlength, List.append_assoc, List.take_left, List.take_left]
    rfl

lemma structuralName?_append (ht : Boundary t) :
    structuralName? (x ++ t) =
      (structuralName? x).map fun (name, rest) => (name, rest ++ t) := by
  have hall : ∀ entries ⊆ Position.keywords, entries.findSome? (nameFrom? (x ++ t)) =
      (entries.findSome? (nameFrom? x)).map fun (name, rest) => (name, rest ++ t) := by
    intro entries hentries
    induction entries with
    | nil => rfl
    | cons entry entries ih =>
      obtain ⟨hentry, hmore⟩ := List.cons_subset.mp hentries
      rw [List.findSome?_cons, List.findSome?_cons, nameFrom?_append ht hentry, ih hmore]
      cases nameFrom? x entry <;> rfl
  rw [structuralName?_eq, structuralName?_eq]
  exact hall _ (List.Subset.refl _)

/-- The name of a position is a name without escapes. -/
theorem structuralName?_eq_some {found : Position × Bool}
    (h : structuralName? x = some (found, after)) :
    ∃ name, x = name ++ after ∧ name ≠ [] ∧
      ∀ c ∈ name, c ≠ '\\' ∧ (isWordChar c || !isAscii c) = true := by
  rw [structuralName?_eq] at h
  obtain ⟨entry, hentry, hfound⟩ := List.exists_of_findSome?_eq_some h
  obtain ⟨middle, hmiddle, hrest⟩ := Option.bind_eq_some_iff.mp hfound
  obtain ⟨⟨ofType, rest⟩, hkind, heq⟩ := Option.map_eq_some_iff.mp hrest
  obtain ⟨-, rfl⟩ := Prod.mk.inj heq
  obtain ⟨name, rfl, -, hname⟩ := afterKeyword?_eq_some (word_of_keywords hentry) hmiddle
  obtain ⟨more, rfl, hlength, hmore⟩ :=
    afterKeyword?_eq_some (kind_letters ofType) (siblingKind?_eq_some hkind)
  refine ⟨name ++ more, (List.append_assoc _ _ _).symm, fun hnil => ?_, fun c hc => ?_⟩
  · rw [(List.append_eq_nil_iff.mp hnil).2] at hlength
    cases ofType <;> exact nomatch hlength
  · obtain hc | hc := List.mem_append.mp hc
    · exact hname c hc
    · exact hmore c hc

/-- Such a name is the whole name of a pseudo-class if an argument follows. -/
theorem identifier?_of_structuralName? {found : Position × Bool}
    (h : structuralName? x = some (found, '(' :: after)) (t : List Char) :
    ∃ name, identifier? (x ++ t) = some (name, '(' :: after ++ t) := by
  obtain ⟨name, rfl, hne, hname⟩ := structuralName?_eq_some h
  have hsplit : ∀ name : List Char, (∀ c ∈ name, c ≠ '\\' ∧ (isWordChar c || !isAscii c) = true) →
      splitIdentifier (name ++ ('(' :: after ++ t)) = (name, '(' :: after ++ t) := by
    intro name hname
    induction name with
    | nil => exact splitIdentifier_stop (identifierUnit?_eq_none (by decide))
    | cons c name ih =>
      obtain ⟨hslash, hplain⟩ := hname c List.mem_cons_self
      have hunit : identifierUnit? (c :: name ++ ('(' :: after ++ t)) =
          some ([c], name ++ ('(' :: after ++ t)) := by
        rw [List.cons_append, identifierUnit?, if_neg hslash, if_pos hplain]
      rw [splitIdentifier_of_unit hunit, ih fun d hd => hname d (List.mem_cons_of_mem c hd)]
      rfl
  refine ⟨name, ?_⟩
  obtain ⟨c, name, rfl⟩ := List.exists_cons_of_ne_nil hne
  rw [identifier?, List.append_assoc, hsplit _ hname]

/-- Whether an argument behind the name of a position, if one is opened there, comes to an end. -/
def ClosedPosition (x : List Char) : Prop :=
  ∀ found after, structuralName? x = some (found, '(' :: after) → ')' ∈ after

lemma formula?_append_of_closed (ht : Boundary t)
    (hclosed : ∀ rest, after = '(' :: rest → ')' ∈ rest) :
    formula? (after ++ t) = (formula? after).map fun (formula, rest) => (formula, rest ++ t) := by
  cases after with
  | nil => rw [List.nil_append, ht.formula?_eq_none, boundary_nil.formula?_eq_none, Option.map_none]
  | cons c rest =>
    by_cases hc : c = '('
    · subst hc
      exact formula?_append_of_mem (List.mem_cons_of_mem _ (hclosed rest rfl)) t
    · have hnone : ∀ more, formula? (c :: more) = none := fun more =>
        formula?_of_unopened (by rintro d ⟨⟩; exact hc)
      rw [List.cons_append, hnone, hnone, Option.map_none]

lemma Written.Boundary.any_head?_append (ht : Boundary t) (rest : List Char) :
    (rest ++ t).head?.any continuesIdentifier = rest.head?.any continuesIdentifier := by
  cases rest with
  | nil =>
    cases t with
    | nil => rfl
    | cons c t => exact (ht c rfl).1
  | cons c rest => rfl

lemma before_append_append {rest : List Char} (hsuffix : rest <:+ x) (t : List Char) :
    before (x ++ t) (rest ++ t) = before x rest := by
  obtain ⟨raw, rfl⟩ := hsuffix
  rw [List.append_assoc, before_append_left, before_append_left]

/-- A position is read in front of a tail as it is without one, if its argument comes to an end. -/
theorem structural?_append (ht : Boundary t) (hx : ClosedPosition x) :
    structural? (':' :: x ++ t) =
      (structural? (':' :: x)).map fun (result, rest) => (result, rest ++ t) := by
  have hend : ∀ (found : Position × Bool) (formula : Option Formula) (rest : List Char),
      rest <:+ x →
      (if (rest ++ t).head?.any continuesIdentifier then none
        else some (StructuralPosition.resolve (String.ofList (':' :: before (x ++ t) (rest ++ t)))
          found.1 found.2 formula, rest ++ t)) =
      (if rest.head?.any continuesIdentifier then none
        else some (StructuralPosition.resolve (String.ofList (':' :: before x rest))
          found.1 found.2 formula, rest)).map fun (result, rest) => (result, rest ++ t) := by
    intro found formula rest hsuffix
    rw [ht.any_head?_append, before_append_append hsuffix]
    split <;> rfl
  rw [List.cons_append, structural?, structural?, structuralName?_append ht]
  cases hname : structuralName? x with
  | none => rfl
  | some found =>
    obtain ⟨found, after⟩ := found
    have hsuffix := structuralName?_suffix hname
    have hformula := formula?_append_of_closed ht fun rest heq => hx found rest (heq ▸ hname)
    simp only [Option.map_some, Option.bind_eq_bind, Option.bind_some, hformula, Option.pure_def]
    cases hfound : formula? after with
    | none => exact hend found none after hsuffix
    | some formula =>
      exact hend found (some formula.1) formula.2 ((formula?_suffix hfound).trans hsuffix)

end Names

end TreeQuery
