import TreeQuery.Proofs.Selector.Tails.Crossings
import TreeQuery.Proofs.Selector.Tails.SpacedPlaces

/-!
# Scans of spaced texts

An argument that is taken to the last parenthesis of its line depends on where lines break, so line
feeds stay here. Every lexeme of the spaced text ends where one of the text ends, and so a scan of
it stops at the same place.
-/

namespace TreeQuery

open Written

variable {lines : Bool} {c d : Char} {x t text more rest : List Char}

section Arguments

variable (lines)

lemma splitPlain_spaced (text : List Char) :
    (splitPlain (spaced lines text)).2 = spaced lines (splitPlain text).2 := by
  cases text with
  | nil => rw [spaced, splitPlain, spaced]
  | cons c text =>
    by_cases hbracket : c = '['
    · subst hbracket
      have htest := attributeTest?_spaced lines text
      rw [spaced_plain (by decide) (by decide)]
      cases hfound : attributeTest? ('[' :: text) with
      | none =>
        rw [hfound] at htest
        cases hfound' : attributeTest? ('[' :: spaced lines text) with
        | none => rw [splitPlain_bracket hfound, splitPlain_bracket hfound']; rfl
        | some found =>
          rw [hfound'] at htest
          cases htest
      | some found =>
        obtain ⟨test, rest⟩ := found
        obtain ⟨inner, hinner, hsuffix⟩ := attributeTest?_suffix hfound
        have hlength := hsuffix.length_le
        obtain ⟨-, rfl⟩ := List.cons.inj hinner
        cases hfound' : attributeTest? ('[' :: spaced lines text) with
        | none =>
          rw [hfound, hfound'] at htest
          cases htest
        | some found =>
          rw [hfound, hfound'] at htest
          cases htest
          rw [splitPlain_attribute hfound, splitPlain_attribute hfound']
          exact splitPlain_spaced rest
    · by_cases hslash : c = '\\'
      · subst hslash
        cases text with
        | nil => rw [spaced, splitPlain, spaced]
        | cons d text =>
          rw [spaced, splitPlain, splitPlain]
          split
          · rfl
          · exact splitPlain_spaced text
      · have hsame : ∀ {d : Char}, isBlank d = false → (spacedChar lines c = d ↔ c = d) :=
          fun hd => spacedChar_eq_iff hd
        have hstop : spacedChar lines c = '(' ∨ spacedChar lines c = ')' ∨
            spacedChar lines c = ']' ↔ c = '(' ∨ c = ')' ∨ c = ']' :=
          or_congr (hsame (by decide)) (or_congr (hsame (by decide)) (hsame (by decide)))
        rw [spaced_cons hslash, splitPlain_cons hbracket hslash, splitPlain_cons
          (mt (hsame (by decide)).mp hbracket) (mt (hsame (by decide)).mp hslash)]
        by_cases hc : c = '(' ∨ c = ')' ∨ c = ']'
        · rw [if_pos hc, if_pos (hstop.mpr hc)]
          exact (spaced_cons hslash text).symm
        · rw [if_neg hc, if_neg (mt hstop.mp hc)]
          exact splitPlain_spaced text
termination_by text.length

lemma parenthesized?_spaced {α β : Type} (a : α) (b : β) (rest : List Char) :
    Twin lines Loose (parenthesized? (a, rest)) (parenthesized? (b, spaced lines rest)) := by
  have heq : ∀ {γ : Type} (a : γ) (rest : List Char), parenthesized? (a, rest) =
      (afterChar? ')' rest).map fun rest => (a, rest) := by
    intro γ a rest
    unfold parenthesized?
    split
    · rename_i heq
      obtain ⟨rfl, rfl⟩ := Prod.mk.inj heq
      rfl
    · rename_i hother
      cases rest with
      | nil => rfl
      | cons c rest =>
        rw [afterChar?, if_neg]
        · rfl
        · rintro rfl
          exact hother _ _ rfl
  rw [heq, heq, afterChar?_spaced lines (by decide) (by decide)]
  exact .of_rest trivial

lemma splitLastParenthesis?_spaced (text : List Char) :
    splitLastParenthesis? (spaced lines text) = (splitLastParenthesis? text).map
      fun (inner, rest) => (spaced lines inner, spaced lines rest) := by
  fun_induction spaced lines text with
  | case1 => rfl
  | case2 => rfl
  | case3 d text ih =>
    simp only [splitLastParenthesis?, ih]
    cases splitLastParenthesis? text with
    | some found => rfl
    | none =>
      dsimp only [Option.map_none]
      by_cases hd : d = ')'
      · rw [if_pos hd, if_pos hd]
        rfl
      · rw [if_neg hd, if_neg hd]
        rfl
  | case4 c text hlast hescape ih =>
    have hslash := ne_backslash hlast hescape
    rw [splitLastParenthesis?, splitLastParenthesis?, ih]
    cases splitLastParenthesis? text with
    | some found =>
      have hinner : spaced lines (c :: found.1) = _ := spaced_cons hslash found.1
      exact congrArg (fun inner => some (inner, spaced lines found.2)) hinner.symm
    | none =>
      dsimp only [Option.map_none]
      by_cases hc : c = ')'
      · rw [if_pos hc, if_pos ((spacedChar_eq_iff (by decide)).mpr hc)]
        rfl
      · rw [if_neg hc, if_neg (mt (spacedChar_eq_iff (by decide)).mp hc)]
        rfl

/-- The spaced text is cut in front of a character where the text is, if no other one becomes it. -/
theorem span_spaced (hslash : d ≠ '\\') (hd : ∀ c, spacedChar lines c = d ↔ c = d)
    (text : List Char) :
    (spaced lines text).takeWhile (· != d) = spaced lines (text.takeWhile (· != d)) ∧
      (spaced lines text).dropWhile (· != d) = spaced lines (text.dropWhile (· != d)) := by
  have hstop : ∀ rest, (d :: rest).takeWhile (· != d) = [] ∧
      (d :: rest).dropWhile (· != d) = d :: rest :=
    fun rest => ⟨List.takeWhile_cons_of_neg (by simp), List.dropWhile_cons_of_neg (by simp)⟩
  have hplain : ∀ {c : Char} (rest : List Char), c ≠ d →
      (c :: rest).takeWhile (· != d) = c :: rest.takeWhile (· != d) ∧
        (c :: rest).dropWhile (· != d) = rest.dropWhile (· != d) :=
    fun rest hc => ⟨List.takeWhile_cons_of_pos (by simpa using hc),
      List.dropWhile_cons_of_pos (by simpa using hc)⟩
  have hescape : ∀ rest, ('\\' :: rest).takeWhile (· != d) = '\\' :: rest.takeWhile (· != d) ∧
      ('\\' :: rest).dropWhile (· != d) = rest.dropWhile (· != d) :=
    fun rest => hplain rest hslash.symm
  have hself : ∀ rest, spaced lines (d :: rest) = d :: spaced lines rest := fun rest => by
    rw [spaced_cons hslash, (hd d).mpr rfl]
  fun_induction spaced lines text with
  | case1 => exact ⟨rfl, rfl⟩
  | case2 => rw [(hescape []).1, (hescape []).2]; exact ⟨rfl, rfl⟩
  | case3 e text ih =>
    rw [(hescape _).1, (hescape _).2, (hescape _).1, (hescape _).2]
    by_cases he : e = d
    · subst he
      rw [(hstop _).1, (hstop _).2, (hstop _).1, (hstop _).2, hself]
      exact ⟨rfl, rfl⟩
    · rw [(hplain _ he).1, (hplain _ he).2, (hplain _ he).1, (hplain _ he).2, ih.1]
      exact ⟨rfl, ih.2⟩
  | case4 c text hlast hmore ih =>
    have hc : c ≠ '\\' := ne_backslash hlast hmore
    by_cases heq : c = d
    · subst heq
      rw [(hd c).mpr rfl, (hstop _).1, (hstop _).2, (hstop _).1, (hstop _).2, hself]
      exact ⟨rfl, rfl⟩
    · rw [(hplain _ heq).1, (hplain _ heq).2, (hplain _ (mt (hd c).mp heq)).1,
        (hplain _ (mt (hd c).mp heq)).2, ih.1, spaced_cons hc]
      exact ⟨rfl, ih.2⟩

/-- An argument that is taken to the last parenthesis of its line is spaced with the text. -/
inductive Argument.Spaced : Argument → Argument → Prop
  | absent : Spaced .absent .absent
  | quoted (body body' : List Char) : Spaced (.quoted body) (.quoted body')
  | plain (text text' : List Char) : Spaced (.plain text) (.plain text')
  | line (text : List Char) : Spaced (.line text) (.line (spaced false text))

/-- Whether an argument is a text that is not in quotes. -/
def Argument.IsText : Argument → Prop
  | .absent | .quoted _ => False
  | .plain _ | .line _ => True

lemma Argument.Spaced.isText_iff {argument argument' : Argument} (h : argument.Spaced argument') :
    argument.IsText ↔ argument'.IsText := by
  cases h <;> rfl

lemma quotedArgument?_spaced (text : List Char) :
    Twin lines Argument.Spaced (quotedArgument? text) (quotedArgument? (spaced lines text)) := by
  rw [quotedArgument?_eq, quotedArgument?_eq]
  have hbody := (quoted?_spaced lines text).bind fun a b rest _ =>
    parenthesized?_spaced lines a b rest
  exact hbody.map Argument.quoted Argument.quoted fun body body' _ => .quoted body body'

lemma plainArgument?_spaced (text : List Char) :
    Twin lines Argument.Spaced (plainArgument? text) (plainArgument? (spaced lines text)) := by
  rw [plainArgument?_eq, plainArgument?_eq]
  have hsplit : Twin lines Loose (some (splitPlain text))
      (some (splitPlain (spaced lines text))) := by
    have htwin : Twin lines Loose (some ((splitPlain text).1, (splitPlain text).2))
        (some ((splitPlain (spaced lines text)).1, spaced lines (splitPlain text).2)) :=
      .some _ trivial
    rwa [← splitPlain_spaced] at htwin
  exact (hsplit.bind fun a b rest _ => parenthesized?_spaced lines a b rest).map
    Argument.plain Argument.plain fun text text' _ => .plain text text'

lemma mentionsPseudo_spaced (text : List Char) :
    mentionsPseudo (spaced lines text) = mentionsPseudo text := by
  have hunit : ∀ text,
      (identifierUnit? (spaced lines text)).isSome = (identifierUnit? text).isSome :=
    fun text => (identifierUnit?_spaced lines text).isSome_eq.symm
  fun_induction spaced lines text with
  | case1 => rfl
  | case2 => rfl
  | case3 d text ih => simp only [mentionsPseudo, hunit, ih]; rfl
  | case4 c text hlast hescape ih =>
    have hcolon : (spacedChar lines c == ':') = (c == ':') := by
      rw [Bool.eq_iff_iff, beq_iff_eq, beq_iff_eq]
      exact spacedChar_eq_iff (by decide)
    rw [mentionsPseudo, mentionsPseudo, hcolon, hunit, ih]

end Arguments

section Lines

lemma spacedChar_eq_break_iff : spacedChar false c = '\n' ↔ c = '\n' := by
  constructor
  · intro h
    rw [spacedChar] at h
    split at h
    · cases h
    · exact h
  · rintro rfl
    rfl

lemma firstLine_spaced (text : List Char) :
    firstLine (spaced false text) = spaced false (firstLine text) ∧
      belowLine (spaced false text) = spaced false (belowLine text) :=
  span_spaced false (by decide) (fun _ => spacedChar_eq_break_iff) text

lemma spaced_append_belowLine (x text : List Char) :
    spaced false (x ++ belowLine text) = spaced false x ++ spaced false (belowLine text) := by
  have hhead := List.head?_dropWhile_not (· != '\n') text
  cases hbelow : belowLine text with
  | nil => rw [List.append_nil, spaced, List.append_nil]
  | cons c rest =>
    have hc : c = '\n' := by
      rw [show text.dropWhile (· != '\n') = c :: rest from hbelow] at hhead
      simpa using hhead
    subst hc
    rw [spaced_append_cons (by decide) (by decide), spaced_cons (by decide)]
    rfl

lemma lineArgument?_spaced (text : List Char) :
    Twin false Argument.Spaced (lineArgument? text) (lineArgument? (spaced false text)) := by
  rw [lineArgument?_eq, lineArgument?_eq, (firstLine_spaced text).1, (firstLine_spaced text).2,
    splitLastParenthesis?_spaced]
  cases splitLastParenthesis? (firstLine text) with
  | none => exact .none
  | some found =>
    have htwin : Twin false Argument.Spaced _ _ := .some (found.2 ++ belowLine text) (.line found.1)
    rwa [spaced_append_belowLine] at htwin

lemma splitArgument_spaced (text : List Char) :
    ((splitArgument text).1).Spaced (splitArgument (spaced false text)).1 ∧
      (splitArgument (spaced false text)).2 = spaced false (splitArgument text).2 := by
  by_cases hopen : ∀ c ∈ text.head?, c ∉ ['(']
  · have hopen' := head_spaced false (by decide) hopen
    rw [splitArgument_of_unopened fun c hc => by simpa using hopen c hc,
      splitArgument_of_unopened fun c hc => by simpa using hopen' c hc]
    exact ⟨.absent, rfl⟩
  · cases text with
    | nil => exact absurd nofun hopen
    | cons c text =>
      obtain rfl : c = '(' := by
        by_contra hc
        exact hopen (by rintro d ⟨⟩; simpa using hc)
      have hread := ((quotedArgument?_spaced false text).or (plainArgument?_spaced false text)).or
        (lineArgument?_spaced text)
      rw [spaced_plain (by decide) (by decide), splitArgument, splitArgument]
      generalize ((quotedArgument? text).or (plainArgument? text)).or (lineArgument? text) = found
        at hread
      generalize ((quotedArgument? (spaced false text)).or (plainArgument? (spaced false text))).or
        (lineArgument? (spaced false text)) = found' at hread
      cases hread with
      | none => exact ⟨.absent, rfl⟩
      | some rest hargument => exact ⟨hargument, rfl⟩

end Lines

section Cuts

/-- An argument is cut where the spaced argument is, if the scans of both stop at one place. -/
theorem splitUnread_spaced
    (h : (scan false (spaced false x)).rest = spaced false (scan false x).rest) :
    splitUnread (spaced false x) (scan false (spaced false x)).rest.length =
      (spaced false (splitUnread x (scan false x).rest.length).1,
        spaced false (splitUnread x (scan false x).rest.length).2) := by
  obtain ⟨front, items, b, hx, hcrosses⟩ := Crosses.exists_of_scan false x
  have hsettled := hcrosses.settled
  rw [h]
  generalize (scan false x).rest = left at hx
  subst hx
  have hspan := span_spaced false (d := ')') (by decide)
    (fun _ => spacedChar_eq_iff (by decide)) left
  rw [spaced_append hsettled, splitUnread_of_append, splitUnread_of_append, hspan.1, hspan.2,
    spaced_append hsettled]

lemma tail_spaced {front : List Char} (h : ∀ c ∈ front.head?, c = ')') (rest : List Char) :
    (spaced false front ++ ')' :: spaced false rest).tail =
      spaced false (front ++ ')' :: rest).tail := by
  cases front with
  | nil => rfl
  | cons c front =>
    obtain rfl : c = ')' := h c rfl
    rw [spaced_plain (by decide) (by decide), List.cons_append, List.cons_append, List.tail_cons,
      List.tail_cons, spaced_append_cons (by decide) (by decide)]

end Cuts

section Lexemes

/-- Two items that are both tokens or both commas. -/
abbrev SameItem (item item' : Option TokenValue) : Prop := item.isSome = item'.isSome

lemma callLexeme_spaced (spelled spelled' : List Char) {argument argument' : Argument}
    (h : argument.Spaced argument')
    (hscan : ∀ inner, argument = .line inner →
      (scan false (spaced false inner)).rest = spaced false (scan false inner).rest) :
    Twin false SameItem (callLexeme spelled (argument, rest)).item?
      (callLexeme spelled' (argument', spaced false rest)).item? := by
  cases h with
  | absent => exact .some rest rfl
  | quoted body body' => exact .some rest rfl
  | plain text text' => exact .some rest rfl
  | line text =>
    rw [callLexeme, callLexeme, mentionsPseudo_spaced]
    split
    · have hcut := splitUnread_spaced (hscan text rfl)
      have hhead : ∀ c ∈ (splitUnread text (scan false text).rest.length).2.head?, c = ')' := by
        intro c hc
        have hstop := List.head?_dropWhile_not (· != ')')
          (text.drop (text.length - (scan false text).rest.length))
        rw [show (List.dropWhile _ _).head? = some c from hc] at hstop
        simpa using hstop
      simp only [Lexeme.item?, hcut]
      rw [tail_spaced hhead]
      exact .some _ rfl
    · exact .some rest rfl

lemma namedLexeme_spaced (value : String → TokenValue) (text : List Char) :
    Twin false SameItem (namedLexeme value text).item?
      (namedLexeme value (spaced false text)).item? := by
  have hname := identifier?_spaced false text
  rw [namedLexeme, namedLexeme]
  generalize identifier? text = found at hname
  generalize identifier? (spaced false text) = found' at hname
  cases hname with
  | none => exact .none
  | some rest _ => exact .some rest rfl

variable (hscan : ∀ inner : List Char, inner.length < text.length →
  (scan false (spaced false inner)).rest = spaced false (scan false inner).rest)
include hscan

lemma splitCall_spaced (spelled spelled' : List Char) :
    Twin false SameItem (callLexeme spelled (splitArgument text)).item?
      (callLexeme spelled' (splitArgument (spaced false text))).item? := by
  obtain ⟨hargument, hrest⟩ := splitArgument_spaced text
  have hline : ∀ inner, (splitArgument text).1 = .line inner →
      (scan false (spaced false inner)).rest = spaced false (scan false inner).rest := by
    intro inner hinner
    refine hscan inner ?_
    have htext := congrArg List.length ((splitArgument_splits text).2 inner hinner)
    simp only [List.length_append, List.length_cons] at htext
    omega
  have hcall : Twin false SameItem
      (callLexeme spelled ((splitArgument text).1, (splitArgument text).2)).item? _ :=
    callLexeme_spaced spelled spelled' hargument hline
  rwa [← hrest] at hcall

lemma pseudo?_spaced :
    Twin false SameItem ((pseudo? (':' :: text)).getD .unknown).item?
      ((pseudo? (':' :: spaced false text)).getD .unknown).item? := by
  have hname := identifier?_spaced false text
  have hsuffix : ∀ name rest, identifier? text = some (name, rest) → rest <:+ text :=
    fun _ _ => identifier?_suffix
  rw [pseudo?_eq, pseudo?_eq]
  generalize identifier? text = found at hname hsuffix
  generalize identifier? (spaced false text) = found' at hname
  cases hname with
  | none => exact .none
  | @some spelled spelled' rest _ =>
    have hlength := (hsuffix _ _ rfl).length_le
    exact splitCall_spaced (fun inner hinner => hscan inner (Nat.lt_of_lt_of_le hinner hlength))
      spelled spelled'

lemma colon_spaced :
    Twin false SameItem (simpleTest (':' :: text)).item?
      (simpleTest (':' :: spaced false text)).item? := by
  have hplace := structural?_spaced false text
  rw [simpleTest_colon_eq, simpleTest_colon_eq]
  generalize structural? (':' :: text) = found at hplace
  generalize structural? (':' :: spaced false text) = found' at hplace
  cases hplace with
  | none => exact pseudo?_spaced hscan
  | @some found found' rest hok =>
    cases found with
    | error e =>
      cases found' with
      | error e' => exact .none
      | ok place => cases hok
    | ok place =>
      cases found' with
      | error e' => cases hok
      | ok place' => exact .some rest rfl

lemma simpleTest_spaced :
    Twin false SameItem (simpleTest text).item? (simpleTest (spaced false text)).item? := by
  cases text with
  | nil => exact .none
  | cons c text =>
    by_cases hc : c ∈ ['*', '#', '.', '[', ':']
    · have hshorter : ∀ inner : List Char, inner.length < text.length →
          (scan false (spaced false inner)).rest = spaced false (scan false inner).rest :=
        fun inner hinner => hscan inner (Nat.lt_succ_of_lt hinner)
      simp only [List.mem_cons, List.not_mem_nil, or_false] at hc
      obtain rfl | rfl | rfl | rfl | rfl := hc
      · exact .some text rfl
      · exact namedLexeme_spaced .id text
      · exact namedLexeme_spaced .className text
      · have htest := attributeTest?_spaced false text
        rw [spaced_plain (by decide) (by decide), simpleTest_bracket_eq, simpleTest_bracket_eq]
        generalize attributeTest? ('[' :: text) = found at htest
        generalize attributeTest? ('[' :: spaced false text) = found' at htest
        cases htest with
        | none => exact .none
        | some rest _ => exact .some rest rfl
      · exact colon_spaced hshorter
    · obtain ⟨more, hspaced, -⟩ := exists_spaced_cons false c text
      have hc' : spacedChar false c ∉ ['*', '#', '.', '[', ':'] := by
        have hhead : ∀ d ∈ (c :: text).head?, d ∉ ['*', '#', '.', '[', ':'] := by
          rintro d ⟨⟩
          exact hc
        exact head_spaced false (by decide) hhead _ (by rw [hspaced]; rfl)
      have hnamed := namedLexeme_spaced .tag (c :: text)
      rw [hspaced] at hnamed ⊢
      rwa [simpleTest_other hc, simpleTest_other hc']

lemma next_spaced (a : Bool) :
    Twin false SameItem (Lexeme.next a text).item? (Lexeme.next a (spaced false text)).item? := by
  have hdrop' := dropBlanks_spaced false text
  cases hdrop : dropBlanks text with
  | nil =>
    rw [hdrop, spaced] at hdrop'
    cases text with
    | nil =>
      have hnone : (Lexeme.next a []).item? = none := by cases a <;> rfl
      rw [spaced, hnone]
      exact .none
    | cons c text =>
      obtain ⟨more, hspaced, -⟩ := exists_spaced_cons false c text
      rw [next_of_nil hdrop (List.cons_ne_nil _ _), next_of_nil hdrop' (by simp [hspaced])]
      exact .some [] rfl
  | cons c rest =>
    obtain ⟨more, hspaced, hmore⟩ := exists_spaced_cons false c rest
    have hblank := isBlank_of_dropBlanks (hdrop ▸ dropBlanks_dropBlanks text) c rfl
    rw [spacedChar_of_not_blank hblank] at hspaced
    rw [hdrop, hspaced] at hdrop'
    have hmore' : c ∈ [',', '>', '+', '~'] → dropBlanks more = spaced false (dropBlanks rest) := by
      intro hc
      rw [hmore (by rintro rfl; exact absurd hc (by decide)), dropBlanks_spaced]
    rw [next_of_cons hdrop, next_of_cons hdrop']
    by_cases hcomma : a = true ∧ c = ','
    · rw [if_pos hcomma, if_pos hcomma, hmore' (by simp [hcomma.2])]
      cases dropBlanks rest with
      | nil => exact .none
      | cons d after =>
        obtain ⟨after', hafter, -⟩ := exists_spaced_cons false d after
        have hseparation : (Lexeme.separation (spaced false (d :: after))).item? =
            some (none, spaced false (d :: after)) := by rw [hafter]; rfl
        rw [hseparation]
        exact .some (d :: after) rfl
    · rw [if_neg hcomma, if_neg hcomma]
      cases hsign : signOf? c with
      | some k =>
        dsimp only
        rw [hmore' (mem_of_signOf? hsign)]
        exact .some _ rfl
      | none =>
        dsimp only
        rw [← hspaced, length_spaced, length_spaced]
        split
        · exact .some (c :: rest) rfl
        · exact simpleTest_spaced hscan

omit hscan in
/-- The scan of the spaced text leaves what the scan of the text leaves, spaced. -/
theorem scan_spaced (a : Bool) (text : List Char) :
    (scan a (spaced false text)).rest = spaced false (scan a text).rest := by
  have hnext : Twin false SameItem (Lexeme.next a text).item? _ :=
    next_spaced (fun inner _ => scan_spaced false inner) a
  cases hitem : (Lexeme.next a text).item? with
  | none =>
    rw [hitem] at hnext
    cases hitem' : (Lexeme.next a (spaced false text)).item? with
    | none => rw [(scan_of_none hitem).2, (scan_of_none hitem').2]
    | some found =>
      rw [hitem'] at hnext
      cases hnext
  | some found =>
    rw [hitem] at hnext
    cases hitem' : (Lexeme.next a (spaced false text)).item? with
    | none =>
      rw [hitem'] at hnext
      cases hnext
    | some found' =>
      rw [hitem'] at hnext
      obtain ⟨raw, htext, hne, -⟩ := Lexeme.next_raw hitem
      have hlength := length_lt_of_splits ⟨htext, hne⟩
      cases hnext with
      | some rest hsame =>
        rw [scan_rest_of_item hitem, scan_rest_of_item hitem', ← hsame]
        exact scan_spaced _ rest
termination_by text.length

end Lexemes

end TreeQuery
