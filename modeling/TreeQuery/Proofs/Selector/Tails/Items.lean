import TreeQuery.Proofs.Selector.Tails.Positions

/-!
# Items

What a scan takes from the first lexeme of a text: a token, or a comma in its place. The text of an
item leaves no backslash waiting, and the text of a name has no quotes, brackets or parentheses.
-/

namespace TreeQuery

open Written

namespace Settled

variable {c : Char} {p q : List Char}

lemma concat (hc : c ≠ '\\') : ∀ p : List Char, Settled (p ++ [c])
  | [] => .ordinary hc .nil
  | d :: p => by
    by_cases hd : d = '\\'
    · subst hd
      cases p with
      | nil => exact .escape c .nil
      | cons e p => exact .escape e (concat hc p)
    · exact .ordinary hd (concat hc p)

lemma of_append_left (hp : Settled p) (h : Settled (p ++ q)) : Settled q := by
  induction hp with
  | nil => exact h
  | ordinary hc _ ih => exact ih (h.of_cons hc)
  | escape c _ ih =>
    obtain ⟨d, rest, heq, hrest⟩ := exists_cons h
    obtain ⟨-, rfl⟩ := List.cons.inj heq
    exact ih hrest

end Settled

lemma Inert.settled {p : List Char} (hp : Inert p) : Settled p := by
  induction hp with
  | nil => exact .nil
  | ordinary hc _ ih => exact .ordinary (by rintro rfl; exact absurd hc (by decide)) ih
  | escape _ _ ih => exact .escape _ ih

section Names

lemma not_special_of_isWordChar {c : Char} (hc : (isWordChar c || !isAscii c) = true) :
    c ∉ ['\'', '"', '\\', '[', ']', '(', ')'] := by
  intro hmem
  simp only [List.mem_cons, List.not_mem_nil, or_false] at hmem
  obtain rfl | rfl | rfl | rfl | rfl | rfl | rfl := hmem <;> exact absurd hc (by decide)

lemma not_special_of_isHexDigit {c : Char} (hc : isHexDigit c = true) :
    c ∉ ['\'', '"', '\\', '[', ']', '(', ')'] :=
  not_special_of_isWordChar (by rw [isWordChar_of_isHexDigit hc]; rfl)

lemma not_special_of_isBlank {c : Char} (hc : isBlank c = true) :
    c ∉ ['\'', '"', '\\', '[', ']', '(', ')'] := by
  intro hmem
  simp only [List.mem_cons, List.not_mem_nil, or_false] at hmem
  obtain rfl | rfl | rfl | rfl | rfl | rfl | rfl := hmem <;> exact absurd hc (by decide)

lemma escape?_inert {text : List Char} {e : Escape} (h : escape? text = some e) :
    Inert ('\\' :: e.raw) := by
  have hdigits := splitHex_digits 6 text
  have hinert : ∀ digits tail : List Char, digits ≠ [] → (∀ c ∈ digits, isHexDigit c = true) →
      Inert tail → Inert ('\\' :: (digits ++ tail)) := by
    intro digits tail hne hall htail
    obtain ⟨d, digits, rfl⟩ := List.exists_cons_of_ne_nil hne
    obtain ⟨hd, hmore⟩ := List.forall_mem_cons.mp hall
    have hbreak : d ≠ '\n' := by
      rintro rfl
      exact absurd hd (by decide)
    have hplain : Inert digits := .of_forall fun c hc => not_special_of_isHexDigit (hmore c hc)
    exact .escape hbreak (hplain.append htail)
  unfold escape? at h
  generalize splitHex 6 text = split at h hdigits
  obtain ⟨digits, after⟩ := split
  cases digits with
  | nil =>
    cases after with
    | nil => exact nomatch h
    | cons c after =>
      dsimp only at h
      cases hend : isLineEnd c with
      | true => simp [hend] at h
      | false =>
        rw [hend] at h
        obtain rfl := Option.some.inj h
        refine .escape ?_ .nil
        rintro rfl
        exact absurd hend (by decide)
  | cons d digits =>
    cases after with
    | nil =>
      obtain rfl := Option.some.inj h
      have hraw := hinert (d :: digits) [] (List.cons_ne_nil _ _) hdigits .nil
      rwa [List.append_nil] at hraw
    | cons c after =>
      dsimp only at h
      cases hblank : isBlank c with
      | true =>
        rw [hblank] at h
        obtain rfl := Option.some.inj h
        exact hinert (d :: digits) [c] (List.cons_ne_nil _ _) hdigits
          (.ordinary (not_special_of_isBlank hblank) .nil)
      | false =>
        rw [hblank] at h
        obtain rfl := Option.some.inj h
        have hraw := hinert (d :: digits) [] (List.cons_ne_nil _ _) hdigits .nil
        rwa [List.append_nil] at hraw

lemma identifierUnit?_inert {text unit rest : List Char}
    (h : identifierUnit? text = some (unit, rest)) : Inert unit := by
  cases text with
  | nil => cases h
  | cons c text =>
    rw [identifierUnit?] at h
    by_cases hc : c = '\\'
    · rw [if_pos hc] at h
      obtain ⟨e, he, heq⟩ := Option.map_eq_some_iff.mp h
      obtain ⟨rfl, -⟩ := Prod.mk.inj heq
      exact hc ▸ escape?_inert he
    · rw [if_neg hc] at h
      by_cases hplain : (isWordChar c || !isAscii c) = true
      · rw [if_pos hplain] at h
        obtain ⟨rfl, -⟩ := Prod.mk.inj (Option.some.inj h)
        exact .ordinary (not_special_of_isWordChar hplain) .nil
      · rw [if_neg hplain] at h
        cases h

lemma splitIdentifier_inert (text : List Char) : Inert (splitIdentifier text).1 := by
  fun_induction splitIdentifier text with
  | case1 => exact .nil
  | case2 text unit rest h more rest' heq ih =>
    rw [heq] at ih
    exact (identifierUnit?_inert h).append ih

lemma identifier?_eq_some {text name rest : List Char}
    (h : identifier? text = some (name, rest)) : splitIdentifier text = (name, rest) := by
  unfold identifier? at h
  split at h
  · exact nomatch h
  · exact Option.some.inj h

lemma identifier?_inert {text name rest : List Char} (h : identifier? text = some (name, rest)) :
    Inert name := by
  have hinert := splitIdentifier_inert text
  rwa [identifier?_eq_some h] at hinert

/-- Behind a name there is nothing that it could go on with. -/
theorem identifierUnit?_of_splitIdentifier (text : List Char) :
    identifierUnit? (splitIdentifier text).2 = none := by
  fun_induction splitIdentifier text with
  | case1 text h => exact h
  | case2 text unit rest h more rest' heq ih => rwa [heq] at ih

end Names

section Items

/-- What a scan takes from a lexeme, a token or a comma, and the text it goes on with. -/
def Lexeme.item? : Lexeme → Option (Option TokenValue × List Char)
  | .separator rest => some (none, rest)
  | .token value rest => some (some value, rest)
  | .nested name _ argument rest =>
    let split := splitUnread argument (scan false argument).rest.length
    some (some (.pseudo ⟨name, some (String.ofList split.1), false⟩), (split.2 ++ ')' :: rest).tail)
  | .fault _ => none
  | .unknown => none

lemma dropBlanks_eq_append (text : List Char) :
    ∃ blanks, text = blanks ++ dropBlanks text ∧ '\\' ∉ blanks := by
  refine ⟨text.takeWhile isBlank, List.takeWhile_append_dropWhile.symm, fun hmem => ?_⟩
  exact absurd (List.mem_takeWhile_imp hmem) (by decide)

/-- The text before a closing bracket or parenthesis, and before its blanks. -/
theorem closeBracket?_eq_some {text rest : List Char} (h : closeBracket? text = some rest) :
    ∃ front, text = front ++ ']' :: rest := by
  obtain ⟨blanks, heq, -⟩ := dropBlanks_eq_append text
  unfold closeBracket? at h
  split at h
  · rename_i after hdrop
    obtain rfl := Option.some.inj h
    exact ⟨blanks, by rw [← hdrop, ← heq]⟩
  · exact nomatch h

lemma closeParenthesis?_eq_some {text rest : List Char} (h : closeParenthesis? text = some rest) :
    ∃ front, text = front ++ ')' :: rest := by
  obtain ⟨blanks, heq, -⟩ := dropBlanks_eq_append text
  unfold closeParenthesis? at h
  split at h
  · rename_i after hdrop
    obtain rfl := Option.some.inj h
    exact ⟨blanks, by rw [← hdrop, ← heq]⟩
  · exact nomatch h

lemma exists_front_of_suffix {c : Char} {text after rest : List Char} (hsuffix : after <:+ text)
    (h : ∃ front, after = front ++ c :: rest) : ∃ front, text = front ++ c :: rest := by
  obtain ⟨raw, rfl⟩ := hsuffix
  obtain ⟨front, rfl⟩ := h
  exact ⟨raw ++ front, (List.append_assoc _ _ _).symm⟩

lemma attributeTest?_front {text rest : List Char} {test : AttributeTest}
    (h : attributeTest? ('[' :: text) = some (test, rest)) :
    ∃ front, text = front ++ ']' :: rest := by
  rw [attributeTest?_eq] at h
  obtain ⟨⟨name, after⟩, hname, hafter⟩ := Option.bind_eq_some_iff.mp h
  have hsuffix : after <:+ text := (identifier?_suffix hname).trans (dropBlanks_suffix text)
  dsimp only at hafter
  unfold afterName? at hafter
  split at hafter
  · rename_i operator value hoperator
    obtain ⟨⟨body, rest'⟩, hclosed, heq⟩ := Option.map_eq_some_iff.mp hafter
    obtain ⟨-, rfl⟩ := Prod.mk.inj heq
    obtain ⟨⟨body', after'⟩, hvalue, hclose⟩ := Option.bind_eq_some_iff.mp hclosed
    obtain ⟨rest'', hbracket, heq'⟩ := Option.map_eq_some_iff.mp hclose
    obtain ⟨-, rfl⟩ := Prod.mk.inj heq'
    exact exists_front_of_suffix ((checkValue?_suffix hvalue).trans ((dropBlanks_suffix _).trans
      ((attributeOperator?_suffix hoperator).trans ((dropBlanks_suffix _).trans hsuffix))))
      (closeBracket?_eq_some hbracket)
  · obtain ⟨rest', hbracket, heq⟩ := Option.map_eq_some_iff.mp hafter
    obtain ⟨-, rfl⟩ := Prod.mk.inj heq
    exact exists_front_of_suffix hsuffix (closeBracket?_eq_some hbracket)

lemma formula?_front {text rest : List Char} {formula : Formula}
    (h : formula? text = some (formula, rest)) : ∃ front, text = front ++ ')' :: rest := by
  cases text with
  | nil => exact nomatch h
  | cons c text =>
    by_cases hc : c = '('
    · subst hc
      have hkeyword : ∀ {word : List Char} {formula' : Formula},
          keywordFormula? word formula' (dropBlanks text) = some (formula, rest) →
            ∃ front, '(' :: text = front ++ ')' :: rest := by
        intro word formula' hfound
        obtain ⟨after, hafter, hclose⟩ := Option.bind_eq_some_iff.mp hfound
        obtain ⟨rest', hrest, heq⟩ := Option.map_eq_some_iff.mp hclose
        obtain ⟨-, rfl⟩ := Prod.mk.inj heq
        exact exists_front_of_suffix (((afterKeyword?_suffix hafter).trans
          (dropBlanks_suffix text)).trans (List.suffix_cons _ _)) (closeParenthesis?_eq_some hrest)
      rw [formula?_eq, Option.or_eq_some_iff, Option.or_eq_some_iff] at h
      obtain heven | ⟨-, hodd | ⟨-, hlinear⟩⟩ := h
      · exact hkeyword heven
      · exact hkeyword hodd
      · obtain ⟨rest', hrest, heq⟩ := Option.map_eq_some_iff.mp hlinear
        obtain ⟨-, rfl⟩ := Prod.mk.inj heq
        exact exists_front_of_suffix (((linear_suffix _).trans (dropBlanks_suffix text)).trans
          (List.suffix_cons _ _)) (closeParenthesis?_eq_some hrest)
    · unfold formula? at h
      split at h
      · rename_i heq
        exact absurd (List.cons.inj heq).1 hc
      · exact nomatch h

lemma parenthesized?_eq_some {α : Type} {found : α × List Char} {a : α} {rest : List Char}
    (h : parenthesized? found = some (a, rest)) : found.2 = ')' :: rest := by
  unfold parenthesized? at h
  split at h
  · obtain ⟨-, rfl⟩ := Prod.mk.inj (Option.some.inj h)
    rfl
  · exact nomatch h

lemma quoted?_suffix {text body rest : List Char} (h : quoted? text = some (body, rest)) :
    rest <:+ text := by
  unfold quoted? at h
  split at h
  · exact (quotedBody?_suffix h).trans (List.suffix_cons _ _)
  · exact (quotedBody?_suffix h).trans (List.suffix_cons _ _)
  · exact nomatch h

/-- An argument ends with a parenthesis. -/
theorem splitArgument_front (text : List Char) :
    splitArgument text = (.absent, text) ∨
      ∃ front, text = front ++ ')' :: (splitArgument text).2 := by
  unfold splitArgument
  split
  · rename_i text
    have hopen : ∀ {rest : List Char}, (∃ front, text = front ++ ')' :: rest) →
        ∃ front, '(' :: text = front ++ ')' :: rest := fun h =>
      exists_front_of_suffix (List.suffix_cons _ _) h
    cases hquoted : quotedArgument? text with
    | some found =>
      rw [quotedArgument?_eq] at hquoted
      obtain ⟨⟨body, rest⟩, hfound, rfl⟩ := Option.map_eq_some_iff.mp hquoted
      obtain ⟨⟨body', after⟩, hbody, hclose⟩ := Option.bind_eq_some_iff.mp hfound
      obtain rfl : after = ')' :: rest := parenthesized?_eq_some hclose
      exact .inr (hopen (exists_front_of_suffix (quoted?_suffix hbody) ⟨[], rfl⟩))
    | none =>
      cases hplain : plainArgument? text with
      | some found =>
        obtain ⟨plain, -, happ⟩ := plainArgument?_splits hplain
        exact .inr (hopen ⟨plain, happ⟩)
      | none =>
        cases hline : lineArgument? text with
        | some found =>
          obtain ⟨inner, -, happ⟩ := lineArgument?_splits hline
          exact .inr (hopen ⟨inner, happ⟩)
        | none => exact .inl rfl
  · exact .inl rfl

/-- An argument that is cut goes up to a closing parenthesis. -/
theorem splitUnread_front (argument rest : List Char) (unread : Nat) :
    argument ++ ')' :: rest = (splitUnread argument unread).1 ++
      ')' :: ((splitUnread argument unread).2 ++ ')' :: rest).tail := by
  have happ := splitUnread_append argument unread
  have hhead : ∀ c ∈ (splitUnread argument unread).2.head?, c = ')' := by
    intro c hc
    have hstop := List.head?_dropWhile_not (· != ')') (argument.drop (argument.length - unread))
    rw [show ((argument.drop (argument.length - unread)).dropWhile (· != ')')).head? = some c
      from hc] at hstop
    simpa using hstop
  cases hleft : (splitUnread argument unread).2 with
  | nil =>
    rw [hleft, List.append_nil] at happ
    rw [happ]
    rfl
  | cons c left =>
    rw [hleft] at happ hhead
    obtain rfl : c = ')' := hhead c rfl
    rw [List.cons_append, List.tail_cons, ← List.cons_append, ← List.append_assoc, happ]

/-- A pseudo-class by its spelled name and its argument. -/
def callLexeme (spelled : List Char) : Argument × List Char → Lexeme
  | (.absent, rest) =>
    .token (.pseudo ⟨(String.ofList (unescape spelled)).toLower, none, false⟩) rest
  | (.quoted body, rest) =>
    .token (.pseudo ⟨(String.ofList (unescape spelled)).toLower, some (String.ofList body),
      true⟩) rest
  | (.plain argument, rest) =>
    .token (.pseudo ⟨(String.ofList (unescape spelled)).toLower, some (String.ofList argument),
      false⟩) rest
  | (.line argument, rest) =>
    if mentionsPseudo argument then
      .nested (String.ofList (unescape spelled)).toLower (':' :: spelled ++ ['(']) argument rest
    else .token (.pseudo ⟨(String.ofList (unescape spelled)).toLower, some (String.ofList argument),
      false⟩) rest

lemma pseudo?_eq (text : List Char) :
    pseudo? (':' :: text) = (identifier? text).map fun (spelled, after) =>
      callLexeme spelled (splitArgument after) := by
  rw [pseudo?]
  cases identifier? text with
  | none => rfl
  | some found =>
    obtain ⟨spelled, after⟩ := found
    simp only [Option.bind_eq_bind, Option.bind_some, Option.map_some]
    generalize splitArgument after = split
    obtain ⟨argument, rest⟩ := split
    cases argument with
    | absent => rfl
    | quoted body => rfl
    | plain argument => rfl
    | line argument =>
      rw [callLexeme]
      dsimp only
      split <;> rfl

lemma isSome_callLexeme (spelled : List Char) (split : Argument × List Char) :
    (callLexeme spelled split).item?.isSome = true := by
  obtain ⟨argument, rest⟩ := split
  cases argument with
  | absent => rfl
  | quoted body => rfl
  | plain argument => rfl
  | line argument =>
    rw [callLexeme]
    split <;> rfl

lemma callLexeme_append (spelled : List Char) (argument : Argument) (rest t : List Char) :
    (callLexeme spelled (argument, rest ++ t)).item? =
      (callLexeme spelled (argument, rest)).item?.map fun (item, rest) => (item, rest ++ t) := by
  cases argument with
  | absent => rfl
  | quoted body => rfl
  | plain argument => rfl
  | line argument =>
    rw [callLexeme, callLexeme]
    split
    · have htail : ∀ left : List Char,
          (left ++ ')' :: (rest ++ t)).tail = (left ++ ')' :: rest).tail ++ t := by
        intro left
        cases left with
        | nil => rfl
        | cons c left => simp
      simp only [Lexeme.item?, htail, Option.map_some]
    · rfl

/-- What an argument leaves to read starts behind a parenthesis, or there is no argument. -/
theorem callLexeme_front {spelled after rest : List Char} {item : Option TokenValue}
    (h : (callLexeme spelled (splitArgument after)).item? = some (item, rest)) :
    rest = after ∨ ∃ front, after = front ++ ')' :: rest := by
  obtain habsent | hfront := splitArgument_front after
  · rw [habsent] at h
    exact .inl (Prod.mk.inj (Option.some.inj h)).2.symm
  · right
    obtain ⟨-, hline⟩ := splitArgument_splits after
    generalize splitArgument after = split at h hfront hline
    obtain ⟨argument, rest'⟩ := split
    cases argument with
    | absent => exact (Prod.mk.inj (Option.some.inj h)).2 ▸ hfront
    | quoted body => exact (Prod.mk.inj (Option.some.inj h)).2 ▸ hfront
    | plain argument => exact (Prod.mk.inj (Option.some.inj h)).2 ▸ hfront
    | line argument =>
      rw [callLexeme] at h
      split at h
      · obtain ⟨-, rfl⟩ := Prod.mk.inj (Option.some.inj h)
        rw [hline _ rfl]
        exact exists_front_of_suffix (List.suffix_cons _ _) ⟨_, splitUnread_front _ _ _⟩
      · exact (Prod.mk.inj (Option.some.inj h)).2 ▸ hfront

lemma simpleTest_bracket_eq (text : List Char) :
    simpleTest ('[' :: text) = match attributeTest? ('[' :: text) with
      | some (test, rest) => .token (.attribute test) rest
      | none => .unknown :=
  rfl

lemma simpleTest_colon_eq (text : List Char) :
    simpleTest (':' :: text) = match structural? (':' :: text) with
      | some (.ok position, rest) => .token (.structural position) rest
      | some (.error e, _) => .fault e
      | none => (pseudo? (':' :: text)).getD .unknown :=
  rfl

/-- What starts with a colon ends with a parenthesis or with a name. -/
theorem simpleTest_colon {text rest : List Char} {item : Option TokenValue}
    (h : (simpleTest (':' :: text)).item? = some (item, rest)) :
    (∃ front, text = front ++ ')' :: rest) ∨
      (∃ found, structuralName? text = some (found, rest)) ∨
      ∃ name, identifier? text = some (name, rest) := by
  rw [simpleTest_colon_eq] at h
  split at h
  · rename_i position after hstructural
    obtain ⟨-, rfl⟩ := Prod.mk.inj (Option.some.inj h)
    simp only [structural?, Option.bind_eq_bind, Option.bind_eq_some_iff, Prod.exists]
      at hstructural
    obtain ⟨position', ofType, middle, hname, hrest⟩ := hstructural
    cases hformula : formula? middle with
    | none =>
      simp only [hformula] at hrest
      split at hrest
      · cases hrest
      · obtain ⟨-, rfl⟩ := Prod.mk.inj (Option.some.inj hrest)
        exact .inr (.inl ⟨_, hname⟩)
    | some found =>
      simp only [hformula] at hrest
      split at hrest
      · cases hrest
      · obtain ⟨-, rfl⟩ := Prod.mk.inj (Option.some.inj hrest)
        exact .inl (exists_front_of_suffix (structuralName?_suffix hname) (formula?_front hformula))
  · cases h
  · cases hpseudo : pseudo? (':' :: text) with
    | none =>
      rw [hpseudo] at h
      cases h
    | some lexeme =>
      rw [hpseudo, Option.getD_some] at h
      rw [pseudo?_eq] at hpseudo
      obtain ⟨⟨spelled, after⟩, hname, rfl⟩ := Option.map_eq_some_iff.mp hpseudo
      obtain rfl | hfront := callLexeme_front h
      · exact .inr (.inr ⟨spelled, hname⟩)
      · exact .inl (exists_front_of_suffix (identifier?_suffix hname) hfront)

lemma settled_front {c : Char} (hc : c ≠ '\\') {text rest : List Char} (d : Char)
    (h : ∃ front, text = front ++ c :: rest) :
    ∃ raw, d :: text = raw ++ rest ∧ raw ≠ [] ∧ Settled raw := by
  obtain ⟨front, rfl⟩ := h
  exact ⟨d :: front ++ [c], by simp, by simp, Settled.concat hc (d :: front)⟩

lemma settled_name {c : Char} (hc : c ≠ '\\') {text name rest : List Char}
    (h : identifier? text = some (name, rest)) :
    ∃ raw, c :: text = raw ++ rest ∧ raw ≠ [] ∧ Settled raw :=
  ⟨c :: name, congrArg (c :: ·) (identifier?_append h).1, List.cons_ne_nil _ _,
    .ordinary hc (identifier?_inert h).settled⟩

/-- What is read as one name after `value`, if a name is there. -/
def namedLexeme (value : String → TokenValue) (text : List Char) : Lexeme :=
  match identifier? text with
  | some (name, rest) => .token (value (String.ofList (unescape name))) rest
  | none => .unknown

lemma namedLexeme_item? (value : String → TokenValue) {text rest : List Char}
    {item : Option TokenValue} (h : (namedLexeme value text).item? = some (item, rest)) :
    ∃ name, identifier? text = some (name, rest) ∧
      item = some (value (String.ofList (unescape name))) := by
  unfold namedLexeme at h
  split at h
  · rename_i name after hname
    obtain ⟨rfl, rfl⟩ := Prod.mk.inj (Option.some.inj h)
    exact ⟨name, hname, rfl⟩
  · exact nomatch h

lemma simpleTest_other {c : Char} (hc : c ∉ ['*', '#', '.', '[', ':']) (text : List Char) :
    simpleTest (c :: text) = namedLexeme .tag (c :: text) := by
  simp only [List.mem_cons, List.not_mem_nil, or_false, not_or] at hc
  obtain ⟨hstar, hhash, hdot, hbracket, hcolon⟩ := hc
  rw [simpleTest, if_neg hstar, if_neg hhash, if_neg hdot, if_neg hbracket, if_neg hcolon]
  rfl

lemma simpleTest_raw {text rest : List Char} {item : Option TokenValue}
    (h : (simpleTest text).item? = some (item, rest)) :
    ∃ raw, text = raw ++ rest ∧ raw ≠ [] ∧ Settled raw := by
  cases text with
  | nil => cases h
  | cons c text =>
    by_cases hc : c ∈ ['*', '#', '.', '[', ':']
    · simp only [List.mem_cons, List.not_mem_nil, or_false] at hc
      obtain rfl | rfl | rfl | rfl | rfl := hc
      · obtain ⟨-, rfl⟩ := Prod.mk.inj (Option.some.inj h)
        exact ⟨['*'], rfl, List.cons_ne_nil _ _, .ordinary (by decide) .nil⟩
      · obtain ⟨name, hname, -⟩ := namedLexeme_item? .id h
        exact settled_name (by decide) hname
      · obtain ⟨name, hname, -⟩ := namedLexeme_item? .className h
        exact settled_name (by decide) hname
      · rw [simpleTest_bracket_eq] at h
        split at h
        · rename_i hfound
          obtain ⟨-, rfl⟩ := Prod.mk.inj (Option.some.inj h)
          exact settled_front (by decide) '[' (attributeTest?_front hfound)
        · cases h
      · obtain hfront | ⟨found, hname⟩ | ⟨name, hname⟩ := simpleTest_colon h
        · exact settled_front (by decide) ':' hfront
        · obtain ⟨name, rfl, -, hall⟩ := structuralName?_eq_some hname
          refine ⟨':' :: name, rfl, List.cons_ne_nil _ _, .ordinary (by decide) ?_⟩
          exact Settled.of_not_mem fun hmem => (hall _ hmem).1 rfl
        · exact settled_name (by decide) hname
    · rw [simpleTest_other hc] at h
      obtain ⟨name, hname, -⟩ := namedLexeme_item? .tag h
      obtain ⟨heq, hne⟩ := identifier?_append hname
      exact ⟨name, heq, hne, (identifier?_inert hname).settled⟩

lemma settled_blanks {c : Char} (hc : c ≠ '\\') {text rest : List Char}
    (h : dropBlanks text = c :: rest) :
    ∃ raw, text = raw ++ dropBlanks rest ∧ raw ≠ [] ∧ Settled raw := by
  obtain ⟨blanks, htext, hblanks⟩ := dropBlanks_eq_append text
  obtain ⟨more, hrest, hmore⟩ := dropBlanks_eq_append rest
  refine ⟨blanks ++ c :: more, ?_, by simp, ?_⟩
  · rw [List.append_assoc, List.cons_append, ← hrest, ← h, ← htext]
  · refine Settled.of_not_mem fun hmem => ?_
    obtain hmem | hmem := List.mem_append.mp hmem
    · exact hblanks hmem
    · obtain heq | hmem := List.mem_cons.mp hmem
      · exact hc heq.symm
      · exact hmore hmem

/-- The text of an item leaves no backslash waiting. -/
theorem Lexeme.next_raw {afterToken : Bool} {text rest : List Char} {item : Option TokenValue}
    (h : (Lexeme.next afterToken text).item? = some (item, rest)) :
    ∃ raw, text = raw ++ rest ∧ raw ≠ [] ∧ Settled raw := by
  unfold Lexeme.next at h
  split at h
  · exact nomatch h
  · rename_i after _ hseparator
    obtain ⟨-, rfl⟩ := Prod.mk.inj (Option.some.inj h)
    split at hseparator
    · unfold separator? at hseparator
      split at hseparator
      · rename_i hdrop
        obtain rfl := Option.some.inj hseparator
        exact settled_blanks (by decide) hdrop
      · exact nomatch hseparator
    · exact nomatch hseparator
  · split at h
    · rename_i hcombinator
      obtain ⟨-, rfl⟩ := Prod.mk.inj (Option.some.inj h)
      unfold combinator? at hcombinator
      split at hcombinator
      · rename_i hdrop
        obtain ⟨-, rfl⟩ := Prod.mk.inj (Option.some.inj hcombinator)
        exact settled_blanks (by decide) hdrop
      · rename_i hdrop
        obtain ⟨-, rfl⟩ := Prod.mk.inj (Option.some.inj hcombinator)
        exact settled_blanks (by decide) hdrop
      · rename_i hdrop
        obtain ⟨-, rfl⟩ := Prod.mk.inj (Option.some.inj hcombinator)
        exact settled_blanks (by decide) hdrop
      · split at hcombinator
        · rename_i hlength
          obtain ⟨-, rfl⟩ := Prod.mk.inj (Option.some.inj hcombinator)
          obtain ⟨blanks, htext, hblanks⟩ := dropBlanks_eq_append text
          refine ⟨blanks, htext, ?_, Settled.of_not_mem hblanks⟩
          rintro rfl
          rw [List.nil_append] at htext
          rw [← htext] at hlength
          exact Nat.lt_irrefl _ hlength
        · exact nomatch hcombinator
    · exact simpleTest_raw h

end Items

section Scans

variable {afterToken : Bool} {text rest : List Char}

lemma scan_of_token {value : TokenValue}
    (h : (Lexeme.next afterToken text).item? = some (some value, rest)) :
    scan afterToken text = (scan true rest).cons ⟨String.ofList (before text rest), value⟩ := by
  rw [Written.scan_eq]
  have hsplits := Lexeme.next_splits afterToken text
  cases hnext : Lexeme.next afterToken text with
  | token value' rest' =>
    rw [hnext] at h
    obtain ⟨hvalue, rfl⟩ := Prod.mk.inj (Option.some.inj h)
    obtain rfl := Option.some.inj hvalue
    rfl
  | nested name head argument after =>
    rw [hnext] at h hsplits
    obtain ⟨rfl, -⟩ := hsplits
    obtain ⟨hvalue, rfl⟩ := Prod.mk.inj (Option.some.inj h)
    obtain rfl := Option.some.inj hvalue
    have htext : head ++ argument ++ ')' :: after =
        head ++ (splitUnread argument (scan false argument).rest.length).1 ++ [')'] ++
          ((splitUnread argument (scan false argument).rest.length).2 ++ ')' :: after).tail := by
      rw [List.append_assoc, splitUnread_front argument after (scan false argument).rest.length]
      simp only [List.append_assoc, List.singleton_append]
    have hraw := before_append_left
      (head ++ (splitUnread argument (scan false argument).rest.length).1 ++ [')'])
      ((splitUnread argument (scan false argument).rest.length).2 ++ ')' :: after).tail
    rw [← htext] at hraw
    rw [Written.scanLexeme, hraw]
  | separator after =>
    rw [hnext] at h
    cases h
  | fault e =>
    rw [hnext] at h
    cases h
  | unknown =>
    rw [hnext] at h
    cases h

lemma scan_of_comma (h : (Lexeme.next afterToken text).item? = some (none, rest)) :
    scan afterToken text = (scan false rest).separated := by
  rw [Written.scan_eq]
  cases hnext : Lexeme.next afterToken text with
  | separator after =>
    rw [hnext] at h
    obtain rfl := (Prod.mk.inj (Option.some.inj h)).2
    rfl
  | token value after =>
    rw [hnext] at h
    exact nomatch (Prod.mk.inj (Option.some.inj h)).1
  | nested name head argument after =>
    rw [hnext] at h
    exact nomatch (Prod.mk.inj (Option.some.inj h)).1
  | fault e =>
    rw [hnext] at h
    exact nomatch h
  | unknown =>
    rw [hnext] at h
    exact nomatch h

lemma scan_of_none (h : (Lexeme.next afterToken text).item? = none) :
    (scan afterToken text).clauses = [[]] ∧ (scan afterToken text).rest = text := by
  rw [Written.scan_eq]
  cases hnext : Lexeme.next afterToken text with
  | separator after =>
    rw [hnext] at h
    exact nomatch h
  | token value after =>
    rw [hnext] at h
    exact nomatch h
  | nested name head argument after =>
    rw [hnext] at h
    exact nomatch h
  | fault e => exact ⟨rfl, rfl⟩
  | unknown => exact ⟨rfl, rfl⟩

lemma scan_rest_of_item {item : Option TokenValue}
    (h : (Lexeme.next afterToken text).item? = some (item, rest)) :
    (scan afterToken text).rest = (scan item.isSome rest).rest := by
  cases item with
  | none =>
    rw [scan_of_comma h]
    rfl
  | some value =>
    rw [scan_of_token h]
    rfl

lemma scan_rest_suffix (afterToken : Bool) (text : List Char) :
    (scan afterToken text).rest <:+ text := by
  cases hitem : (Lexeme.next afterToken text).item? with
  | none => exact ⟨[], (scan_of_none hitem).2⟩
  | some found =>
    obtain ⟨item, rest⟩ := found
    obtain ⟨raw, htext, hne, -⟩ := Lexeme.next_raw hitem
    have hlength : rest.length < text.length := length_lt_of_splits ⟨htext, hne⟩
    rw [scan_rest_of_item hitem]
    exact (scan_rest_suffix item.isSome rest).trans ⟨raw, htext.symm⟩
termination_by text.length

end Scans

end TreeQuery
