import TreeQuery.Proofs.Selector.Tails.Seeds
import TreeQuery.Proofs.Selector.Tails.Scans

/-!
# Blanks of one kind

Where a reader stops does not depend on which blanks a text has, line feeds and escaped blanks
apart. `spaced` puts a space for all the others, and each reader stops in the spaced text where it
stops in the text.
-/

namespace TreeQuery

open Written

/-- A space for a blank; a line feed counts as one if `lines` says so. -/
def spacedChar (lines : Bool) (c : Char) : Char :=
  if isBlank c && (lines || c != '\n') then ' ' else c

/-- The text with spaces for all blanks that are not escaped. -/
def spaced (lines : Bool) : List Char → List Char
  | [] => []
  | ['\\'] => ['\\']
  | '\\' :: d :: text => '\\' :: d :: spaced lines text
  | c :: text => spacedChar lines c :: spaced lines text

variable {α β γ δ : Type} {lines : Bool} {b c d : Char} {x t text more rest : List Char}

section Characters

lemma spacedChar_of_not_blank (hc : isBlank c = false) : spacedChar lines c = c := by
  rw [spacedChar, hc]
  rfl

lemma isBlank_spacedChar (c : Char) : isBlank (spacedChar lines c) = isBlank c := by
  rw [spacedChar]
  split
  · rename_i h
    exact ((Bool.and_eq_true _ _ ▸ h).1).symm
  · rfl

/-- No character becomes another one that is no blank. -/
theorem spacedChar_eq_iff (hd : isBlank d = false) : spacedChar lines c = d ↔ c = d := by
  constructor
  · rintro rfl
    rw [isBlank_spacedChar] at hd
    exact (spacedChar_of_not_blank hd).symm
  · rintro rfl
    exact spacedChar_of_not_blank hd

lemma spacedChar_of_blank (hb : isBlank b = true) (hline : lines = true ∨ b ≠ '\n') :
    spacedChar lines b = ' ' := by
  rw [spacedChar, hb]
  simp [hline]

lemma spaced_cons (hc : c ≠ '\\') (text : List Char) :
    spaced lines (c :: text) = spacedChar lines c :: spaced lines text := by
  rw [spaced]
  · exact fun h _ => hc h
  · exact fun _ _ h _ => hc h

lemma spaced_plain (hc : c ≠ '\\') (hblank : isBlank c = false) (text : List Char) :
    spaced lines (c :: text) = c :: spaced lines text := by
  rw [spaced_cons hc, spacedChar_of_not_blank hblank]

lemma spaced_blank (hb : isBlank b = true) (text : List Char) :
    spaced lines (b :: text) = spacedChar lines b :: spaced lines text :=
  spaced_cons (by rintro rfl; cases hb) text

lemma exists_spaced_cons (lines : Bool) (c : Char) (text : List Char) :
    ∃ more, spaced lines (c :: text) = spacedChar lines c :: more ∧
      (c ≠ '\\' → more = spaced lines text) := by
  by_cases hc : c = '\\'
  · subst hc
    cases text with
    | nil => exact ⟨[], rfl, fun hne => absurd rfl hne⟩
    | cons d text => exact ⟨d :: spaced lines text, rfl, fun hne => absurd rfl hne⟩
  · exact ⟨spaced lines text, spaced_cons hc text, fun _ => rfl⟩

lemma length_spaced (text : List Char) : (spaced lines text).length = text.length := by
  fun_induction spaced lines text with
  | case1 => rfl
  | case2 => rfl
  | case3 d text ih => simp [ih]
  | case4 c text _ _ ih => simp [ih]

lemma spaced_append (hx : Settled x) (t : List Char) :
    spaced lines (x ++ t) = spaced lines x ++ spaced lines t := by
  induction hx with
  | nil => rfl
  | ordinary hc _ ih => rw [List.cons_append, spaced_cons hc, spaced_cons hc, ih, List.cons_append]
  | escape c _ ih => rw [List.cons_append, List.cons_append, spaced, spaced, ih]; rfl

/-- A character that stays the same parts a text, also where it is escaped. -/
theorem spaced_append_cons (hc : c ≠ '\\') (hsame : spacedChar lines c = c) (x t : List Char) :
    spaced lines (x ++ c :: t) = spaced lines x ++ c :: spaced lines t := by
  fun_induction spaced lines x with
  | case1 => rw [List.nil_append, spaced_cons hc, hsame]; rfl
  | case2 => rfl
  | case3 d x ih => rw [List.cons_append, List.cons_append, spaced, ih]; rfl
  | case4 d x hslash hescape ih =>
    have hd : d ≠ '\\' := by
      rintro rfl
      cases x with
      | nil => exact hslash rfl rfl
      | cons e x => exact hescape e x rfl rfl
    rw [List.cons_append, spaced_cons hd, ih]
    rfl

lemma spaced_append_of_plain {word : List Char}
    (h : ∀ c ∈ word, c ≠ '\\' ∧ isBlank c = false) (t : List Char) :
    spaced lines (word ++ t) = word ++ spaced lines t := by
  induction word with
  | nil => rfl
  | cons c word ih =>
    obtain ⟨hc, hblank⟩ := h c List.mem_cons_self
    rw [List.cons_append, spaced_plain hc hblank, ih fun d hd => h d (List.mem_cons_of_mem _ hd)]
    rfl

lemma head?_spaced (text : List Char) :
    (spaced lines text).head? = text.head?.map (spacedChar lines) := by
  cases text with
  | nil => rfl
  | cons c text =>
    obtain ⟨more, hmore, -⟩ := exists_spaced_cons lines c text
    rw [hmore]
    rfl

/-- A text that starts with none of some marks goes on so when it is spaced. -/
theorem head_spaced (lines : Bool) {marks : List Char} (hmarks : marks.any isBlank = false)
    (h : ∀ c ∈ text.head?, c ∉ marks) : ∀ c ∈ (spaced lines text).head?, c ∉ marks := by
  intro c hc hmem
  rw [head?_spaced] at hc
  obtain ⟨d, hd, rfl⟩ := Option.map_eq_some_iff.mp hc
  have hblank : isBlank (spacedChar lines d) = false :=
    Bool.eq_false_iff.mpr (List.any_eq_false.mp hmarks _ hmem)
  have heq : d = spacedChar lines d := (spacedChar_eq_iff hblank).mp rfl
  exact h d hd (heq ▸ hmem)

lemma exists_of_spaced_cons (hslash : d ≠ '\\') (hd : isBlank d = false)
    (h : spaced lines text = d :: more) : ∃ rest, text = d :: rest ∧ spaced lines rest = more := by
  cases text with
  | nil => cases h
  | cons c text =>
    obtain ⟨tail, htail, hmore⟩ := exists_spaced_cons lines c text
    obtain ⟨hc, rfl⟩ := List.cons.inj (htail.symm.trans h)
    obtain rfl := (spacedChar_eq_iff hd).mp hc
    exact ⟨text, rfl, (hmore hslash).symm⟩

lemma dropBlanks_spaced (lines : Bool) (text : List Char) :
    dropBlanks (spaced lines text) = spaced lines (dropBlanks text) := by
  induction text with
  | nil => rfl
  | cons c text ih =>
    by_cases hc : isBlank c = true
    · rw [spaced_blank hc, dropBlanks, List.dropWhile_cons_of_pos (by rwa [isBlank_spacedChar]),
        dropBlanks, List.dropWhile_cons_of_pos hc]
      exact ih
    · have hself : dropBlanks (c :: text) = c :: text :=
        dropBlanks_eq_self (by rintro d ⟨⟩; simpa using hc)
      rw [hself]
      refine dropBlanks_eq_self fun d hd => ?_
      rw [head?_spaced] at hd
      obtain rfl : spacedChar lines c = d := Option.some.inj hd
      rw [isBlank_spacedChar]
      simpa using hc

end Characters

section Readers

/-- What a reader finds in a text and in the spaced text, with the rest of the text spaced. -/
inductive Twin (lines : Bool) (R : α → β → Prop) :
    Option (α × List Char) → Option (β × List Char) → Prop
  | none : Twin lines R none none
  | some {a : α} {b : β} (rest : List Char) :
    R a b → Twin lines R (some (a, rest)) (some (b, spaced lines rest))

/-- Nothing is asked of what is found. -/
abbrev Loose : α → β → Prop := fun _ _ => True

namespace Twin

variable {R : α → β → Prop} {S : γ → δ → Prop} {found : Option (α × List Char)}
  {found' : Option (β × List Char)}

lemma bind (h : Twin lines R found found') {next : α × List Char → Option (γ × List Char)}
    {next' : β × List Char → Option (δ × List Char)}
    (hnext : ∀ a b rest, R a b → Twin lines S (next (a, rest)) (next' (b, spaced lines rest))) :
    Twin lines S (found.bind next) (found'.bind next') := by
  cases h with
  | none => exact .none
  | some rest hR => exact hnext _ _ rest hR

lemma map (h : Twin lines R found found') (f : α → γ) (g : β → δ)
    (hfg : ∀ a b, R a b → S (f a) (g b)) :
    Twin lines S (found.map fun (a, rest) => (f a, rest))
      (found'.map fun (b, rest) => (g b, rest)) := by
  cases h with
  | none => exact .none
  | some rest hR => exact .some rest (hfg _ _ hR)

lemma or {second : Option (α × List Char)} {second' : Option (β × List Char)}
    (h : Twin lines R found found') (hsecond : Twin lines R second second') :
    Twin lines R (found.or second) (found'.or second') := by
  cases h with
  | none => exact hsecond
  | some rest hR => exact .some rest hR

lemma of_rest {found : Option (List Char)} {a : α} {b : β} (hR : R a b) :
    Twin lines R (found.map fun rest => (a, rest))
      ((found.map (spaced lines)).map fun rest => (b, rest)) := by
  cases found with
  | none => exact .none
  | some rest => exact .some rest hR

/-- What is found in two texts that are one when they are spaced. -/
theorem meet {shared : Option (β × List Char)} (h : Twin lines R found shared)
    {found' : Option (α × List Char)} (h' : Twin lines R found' shared) {a : α} {rest : List Char}
    (hfound : found = .some (a, rest)) :
    ∃ b a' rest', found' = .some (a', rest') ∧ rest'.length = rest.length ∧ R a b ∧ R a' b := by
  subst hfound
  generalize hshared : shared = shared' at h'
  cases h with
  | @some a b rest hR =>
    cases h' with
    | none => cases hshared
    | @some a' b' rest' hR' =>
      obtain ⟨rfl, hrest⟩ := Prod.mk.inj (Option.some.inj hshared)
      refine ⟨b, a', rest', rfl, ?_, hR, hR'⟩
      rw [← length_spaced rest', ← hrest, length_spaced]

lemma meet_none {shared : Option (β × List Char)} (h : Twin lines R found shared)
    {found' : Option (α × List Char)} (h' : Twin lines R found' shared) (hfound : found = .none) :
    found' = .none := by
  subst hfound
  cases h
  cases h'
  rfl

lemma isSome_eq (h : Twin lines R found found') : found.isSome = found'.isSome := by
  cases h <;> rfl

end Twin

end Readers

section Names

variable (lines)

lemma isBlank_of_isWordChar (hc : (isWordChar c || !isAscii c) = true) : isBlank c = false := by
  have hcontinues : continuesIdentifier c = true := by
    rw [Bool.or_eq_true] at hc
    obtain hword | hascii := hc
    · simp [continuesIdentifier, hword]
    · simp [continuesIdentifier, hascii]
  exact isBlank_of_continuesIdentifier hcontinues

lemma isHexDigit_blank (hb : isBlank b = true) : isHexDigit b = false := by
  cases hhex : isHexDigit b with
  | false => rfl
  | true =>
    have hword := isWordChar_of_isHexDigit hhex
    cases (isBlank_of_isWordChar (by rw [hword]; rfl)).symm.trans hb

lemma splitHex_spaced (n : Nat) (text : List Char) :
    splitHex n (spaced lines text) = ((splitHex n text).1, spaced lines (splitHex n text).2) := by
  induction n generalizing text with
  | zero => rw [splitHex, splitHex]; all_goals simp
  | succ n ih =>
    cases text with
    | nil => rfl
    | cons c text =>
      by_cases hc : isHexDigit c = true
      · have hslash : c ≠ '\\' := by
          rintro rfl
          cases hc
        have hblank : isBlank c = false := by
          cases hb : isBlank c with
          | false => rfl
          | true => cases (isHexDigit_blank hb).symm.trans hc
        rw [spaced_plain hslash hblank, splitHex, splitHex, if_pos hc, if_pos hc, ih]
      · have hstop : ∀ rest : List Char, (∀ d ∈ rest.head?, isHexDigit d = false) →
            splitHex (n + 1) rest = ([], rest) := by
          intro rest hrest
          cases rest with
          | nil => rfl
          | cons d rest => rw [splitHex, if_neg (by simp [hrest d rfl])]
        rw [hstop (c :: text) (by rintro d ⟨⟩; simpa using hc), hstop]
        intro d hd
        rw [head?_spaced] at hd
        obtain rfl : spacedChar lines c = d := Option.some.inj hd
        cases hb : isBlank c with
        | false => rw [spacedChar_of_not_blank hb]; simpa using hc
        | true => exact isHexDigit_blank ((isBlank_spacedChar c).trans hb)

/-- An escape stops at the same place, its first character being any one. -/
theorem escape?_spaced (d : Char) (text : List Char) :
    Twin lines Loose ((escape? (d :: text)).map fun e => (e.value, e.rest))
      ((escape? (d :: spaced lines text)).map fun e => (e.value, e.rest)) := by
  by_cases hd : isHexDigit d = true
  · have hsplit : ∀ rest,
        splitHex 6 (d :: rest) = (d :: (splitHex 5 rest).1, (splitHex 5 rest).2) :=
      fun rest => by rw [splitHex, if_pos hd]
    rw [escape?, escape?, hsplit, hsplit, splitHex_spaced]
    cases (splitHex 5 text).2 with
    | nil => exact .some [] trivial
    | cons c after =>
      obtain ⟨more, hmore, hafter⟩ := exists_spaced_cons lines c after
      rw [hmore]
      dsimp only
      rw [isBlank_spacedChar]
      by_cases hb : isBlank c = true
      · rw [if_pos hb, if_pos hb, hafter (by rintro rfl; cases hb)]
        exact .some after trivial
      · rw [if_neg hb, if_neg hb, ← hmore]
        exact .some (c :: after) trivial
  · have hsplit : ∀ rest, splitHex 6 (d :: rest) = ([], d :: rest) :=
      fun rest => by rw [splitHex, if_neg hd]
    rw [escape?, escape?, hsplit, hsplit]
    dsimp only
    split
    · exact .none
    · exact .some text trivial

lemma identifierUnit?_spaced (text : List Char) :
    Twin lines Loose (identifierUnit? text) (identifierUnit? (spaced lines text)) := by
  cases text with
  | nil => exact .none
  | cons c text =>
    by_cases hslash : c = '\\'
    · subst hslash
      cases text with
      | nil => exact .none
      | cons d text =>
        have hescape := escape?_spaced lines d text
        rw [spaced, identifierUnit?, identifierUnit?, if_pos rfl, if_pos rfl]
        generalize escape? (d :: text) = found at hescape
        generalize escape? (d :: spaced lines text) = found' at hescape
        cases found with
        | none =>
          cases found' with
          | none => exact .none
          | some e' => cases hescape
        | some e =>
          cases found' with
          | none => cases hescape
          | some e' =>
            obtain ⟨raw', value', rest'⟩ := e'
            cases hescape
            exact .some e.rest trivial
    · rw [spaced_cons hslash, identifierUnit?, identifierUnit?, if_neg hslash,
        if_neg fun heq => hslash ((spacedChar_eq_iff (by decide)).mp heq)]
      cases hb : isBlank c with
      | false =>
        rw [spacedChar_of_not_blank hb]
        split
        · exact .some text trivial
        · exact .none
      | true =>
        have hplain : ∀ {d : Char}, isBlank d = true → ¬(isWordChar d || !isAscii d) = true :=
          fun hd hname => Bool.false_ne_true ((isBlank_of_isWordChar hname).symm.trans hd)
        rw [if_neg (hplain hb), if_neg (hplain ((isBlank_spacedChar c).trans hb))]
        exact .none

lemma identifier?_of_unit {unit : List Char} (h : identifierUnit? text = some (unit, rest)) :
    identifier? text = some (splitIdentifier text) := by
  obtain ⟨-, hne⟩ := identifierUnit?_append h
  obtain ⟨c, unit, rfl⟩ := List.exists_cons_of_ne_nil hne
  rw [identifier?, splitIdentifier_of_unit h]
  rfl

lemma splitIdentifier_spaced (text : List Char) :
    (splitIdentifier (spaced lines text)).2 = spaced lines (splitIdentifier text).2 := by
  have hunit := identifierUnit?_spaced lines text
  fun_induction splitIdentifier text with
  | case1 text hnone =>
    rw [hnone] at hunit
    cases hfound : identifierUnit? (spaced lines text) with
    | none => rw [splitIdentifier_stop hfound]
    | some found =>
      rw [hfound] at hunit
      cases hunit
  | case2 text unit rest hsome more rest' heq ih =>
    rw [hsome] at hunit
    cases hfound : identifierUnit? (spaced lines text) with
    | none =>
      rw [hfound] at hunit
      cases hunit
    | some found =>
      rw [hfound] at hunit
      cases hunit
      rw [splitIdentifier_of_unit hfound, ih (identifierUnit?_spaced lines rest), heq]

lemma identifier?_spaced (text : List Char) :
    Twin lines Loose (identifier? text) (identifier? (spaced lines text)) := by
  have hunit := identifierUnit?_spaced lines text
  cases hfound : identifierUnit? text with
  | none =>
    rw [hfound] at hunit
    cases hfound' : identifierUnit? (spaced lines text) with
    | none =>
      rw [identifier?_eq_none hfound, identifier?_eq_none hfound']
      exact .none
    | some found' =>
      rw [hfound'] at hunit
      cases hunit
  | some found =>
    rw [hfound] at hunit
    cases hfound' : identifierUnit? (spaced lines text) with
    | none =>
      rw [hfound'] at hunit
      cases hunit
    | some found' =>
      have htwin : Twin lines Loose (some ((splitIdentifier text).1, (splitIdentifier text).2))
          (some ((splitIdentifier (spaced lines text)).1, spaced lines (splitIdentifier text).2)) :=
        .some _ trivial
      rw [identifier?_of_unit hfound, identifier?_of_unit hfound']
      rwa [← splitIdentifier_spaced] at htwin

end Names

section Brackets

variable (lines)

/-- What stands behind a given character at the start of a text. -/
def afterChar? (d : Char) : List Char → Option (List Char)
  | c :: rest => if c = d then some rest else none
  | [] => none

lemma afterChar?_spaced (hslash : d ≠ '\\') (hd : isBlank d = false) (text : List Char) :
    afterChar? d (spaced lines text) = (afterChar? d text).map (spaced lines) := by
  cases text with
  | nil => rfl
  | cons c text =>
    obtain ⟨more, hmore, hafter⟩ := exists_spaced_cons lines c text
    rw [hmore, afterChar?, afterChar?]
    by_cases hc : c = d
    · rw [if_pos hc, if_pos ((spacedChar_eq_iff hd).mpr hc), hafter (hc ▸ hslash)]
      rfl
    · rw [if_neg hc, if_neg fun heq => hc ((spacedChar_eq_iff hd).mp heq)]
      rfl

lemma closeBracket?_eq (text : List Char) :
    closeBracket? text = afterChar? ']' (dropBlanks text) := by
  rw [closeBracket?]
  split
  · rename_i heq
    rw [heq]
    rfl
  · rename_i hother
    cases hdrop : dropBlanks text with
    | nil => rfl
    | cons c rest =>
      rw [afterChar?, if_neg]
      rintro rfl
      exact hother rest hdrop

lemma closeParenthesis?_eq (text : List Char) :
    closeParenthesis? text = afterChar? ')' (dropBlanks text) := by
  rw [closeParenthesis?]
  split
  · rename_i heq
    rw [heq]
    rfl
  · rename_i hother
    cases hdrop : dropBlanks text with
    | nil => rfl
    | cons c rest =>
      rw [afterChar?, if_neg]
      rintro rfl
      exact hother rest hdrop

lemma closeBracket?_spaced (text : List Char) :
    closeBracket? (spaced lines text) = (closeBracket? text).map (spaced lines) := by
  rw [closeBracket?_eq, closeBracket?_eq, dropBlanks_spaced,
    afterChar?_spaced lines (by decide) (by decide)]

lemma closeParenthesis?_spaced (text : List Char) :
    closeParenthesis? (spaced lines text) = (closeParenthesis? text).map (spaced lines) := by
  rw [closeParenthesis?_eq, closeParenthesis?_eq, dropBlanks_spaced,
    afterChar?_spaced lines (by decide) (by decide)]

lemma quotedBody?_cons {quote c : Char} (hc : c ≠ '\\') (rest : List Char) :
    quotedBody? quote (c :: rest) = if c = quote then some ([], rest)
      else (quotedBody? quote rest).map fun (body, rest) => (c :: body, rest) := by
  rw [quotedBody?]
  · exact fun h _ => hc h
  · exact fun _ _ h _ => hc h

lemma quotedBody?_spaced {quote : Char} (hquote : quote ∈ ['\'', '"']) (text : List Char) :
    Twin lines Loose (quotedBody? quote text) (quotedBody? quote (spaced lines text)) := by
  have hslash : quote ≠ '\\' := by
    rintro rfl
    exact absurd hquote (by decide)
  have hblank : isBlank quote = false := by
    simp only [List.mem_cons, List.not_mem_nil, or_false] at hquote
    obtain rfl | rfl := hquote <;> decide
  fun_induction spaced lines text with
  | case1 => exact .none
  | case2 => exact .none
  | case3 d text ih =>
    rw [quotedBody?, quotedBody?]
    split
    · exact .none
    · exact ih.map ('\\' :: d :: ·) ('\\' :: d :: ·) fun _ _ _ => trivial
  | case4 c text hlast hescape ih =>
    have hc : c ≠ '\\' := ne_backslash hlast hescape
    rw [quotedBody?_cons hc text, quotedBody?_cons
      (fun heq => hc ((spacedChar_eq_iff (by decide)).mp heq)) (spaced lines text)]
    by_cases heq : c = quote
    · rw [if_pos heq, if_pos ((spacedChar_eq_iff hblank).mpr heq)]
      exact .some text trivial
    · rw [if_neg heq, if_neg fun h => heq ((spacedChar_eq_iff hblank).mp h)]
      exact ih.map (c :: ·) (spacedChar lines c :: ·) fun _ _ _ => trivial

lemma attributeOperator?_spaced (text : List Char) :
    Twin lines Eq (attributeOperator? text) (attributeOperator? (spaced lines text)) := by
  have hnone : attributeOperator? text = none → attributeOperator? (spaced lines text) = none := by
    intro hnone
    unfold attributeOperator?
    split
    case h_8 => rfl
    all_goals
      rename_i heq
      obtain ⟨rest, rfl, hrest⟩ := exists_of_spaced_cons (by decide) (by decide) heq
      first
        | cases hnone
        | obtain ⟨rest', rfl, -⟩ := exists_of_spaced_cons (by decide) (by decide) hrest
          cases hnone
  cases hfound : attributeOperator? text with
  | none =>
    rw [hnone hfound]
    exact .none
  | some found =>
    unfold attributeOperator? at hfound
    split at hfound
    case h_8 => cases hfound
    all_goals
      obtain rfl := Option.some.inj hfound
      exact .some _ rfl

/-- What is in quotes is read as such, and something else otherwise. -/
theorem cases_quotes (text : List Char) :
    (∃ quote ∈ ['\'', '"'], ∃ rest,
      text = quote :: rest ∧ spaced lines text = quote :: spaced lines rest) ∨
      ((∀ c ∈ text.head?, c ∉ ['\'', '"']) ∧ ∀ c ∈ (spaced lines text).head?, c ∉ ['\'', '"']) := by
  cases text with
  | nil => exact .inr ⟨nofun, nofun⟩
  | cons c rest =>
    by_cases hquote : c ∈ ['\'', '"']
    · have hplain : c ≠ '\\' ∧ isBlank c = false := by
        simp only [List.mem_cons, List.not_mem_nil, or_false] at hquote
        obtain rfl | rfl := hquote <;> decide
      exact .inl ⟨c, hquote, rest, rfl, spaced_plain hplain.1 hplain.2 rest⟩
    · have hhead : ∀ d ∈ (c :: rest).head?, d ∉ ['\'', '"'] := by
        rintro d ⟨⟩
        exact hquote
      exact .inr ⟨hhead, head_spaced lines (by decide) hhead⟩

lemma quoted?_cons {quote : Char} (hquote : quote ∈ ['\'', '"']) (text : List Char) :
    quoted? (quote :: text) = quotedBody? quote text ∧
      checkValue? (quote :: text) = quotedBody? quote text := by
  simp only [List.mem_cons, List.not_mem_nil, or_false] at hquote
  obtain rfl | rfl := hquote <;> exact ⟨rfl, rfl⟩

lemma quoted?_spaced (text : List Char) :
    Twin lines Loose (quoted? text) (quoted? (spaced lines text)) := by
  obtain ⟨quote, hquote, rest, rfl, hspaced⟩ | ⟨hplain, hplain'⟩ := cases_quotes lines text
  · rw [hspaced, (quoted?_cons hquote _).1, (quoted?_cons hquote _).1]
    exact quotedBody?_spaced lines hquote rest
  · rw [quoted?_of_unquoted hplain, quoted?_of_unquoted hplain']
    exact .none

lemma checkValue?_spaced (text : List Char) :
    Twin lines Loose (checkValue? text) (checkValue? (spaced lines text)) := by
  obtain ⟨quote, hquote, rest, rfl, hspaced⟩ | ⟨hplain, hplain'⟩ := cases_quotes lines text
  · rw [hspaced, (quoted?_cons hquote _).2, (quoted?_cons hquote _).2]
    exact quotedBody?_spaced lines hquote rest
  · rw [checkValue?_of_unquoted hplain, checkValue?_of_unquoted hplain']
    exact identifier?_spaced lines text

lemma closed?_spaced {β : Type} (a : α) (b : β) (rest : List Char) :
    Twin lines Loose (closed? (a, rest)) (closed? (b, spaced lines rest)) := by
  rw [closed?, closed?, closeBracket?_spaced]
  exact .of_rest trivial

lemma closedValue?_spaced (text : List Char) :
    Twin lines Loose (closedValue? text) (closedValue? (spaced lines text)) := by
  rw [closedValue?, closedValue?, dropBlanks_spaced]
  exact (checkValue?_spaced lines _).bind fun a b rest _ => closed?_spaced lines a b rest

lemma afterName?_spaced (name name' text : List Char) :
    Twin lines Loose (afterName? name text) (afterName? name' (spaced lines text)) := by
  have hoperator := attributeOperator?_spaced lines (dropBlanks text)
  rw [afterName?, afterName?, dropBlanks_spaced]
  generalize attributeOperator? (dropBlanks text) = found at hoperator
  generalize attributeOperator? (spaced lines (dropBlanks text)) = found' at hoperator
  cases hoperator with
  | none =>
    dsimp only
    rw [closeBracket?_spaced]
    exact .of_rest trivial
  | @some operator operator' rest _ =>
    exact (closedValue?_spaced lines rest).map (S := Loose)
      (fun value => AttributeTest.ofSpelling name (some (operator, value)))
      (fun value => AttributeTest.ofSpelling name' (some (operator', value))) fun _ _ _ => trivial

lemma attributeTest?_spaced (text : List Char) :
    Twin lines Loose (attributeTest? ('[' :: text))
      (attributeTest? ('[' :: spaced lines text)) := by
  rw [attributeTest?_eq, attributeTest?_eq, dropBlanks_spaced]
  exact (identifier?_spaced lines _).bind fun name name' rest _ =>
    afterName?_spaced lines name name' rest

end Brackets

end TreeQuery
