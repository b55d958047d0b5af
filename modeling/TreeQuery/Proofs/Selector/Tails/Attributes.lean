import TreeQuery.Proofs.Selector.Written.Scans

/-!
# Tails

A name or an attribute test that ends within a text is read from it whatever tail follows the text,
and so is every failure to read one. Of the tail only its start matters: it must not go on with a
name, and nothing at its start may end an attribute test.
-/

namespace TreeQuery

/-- Whether no backslash at the end of a text waits for a character. -/
inductive Settled : List Char → Prop where
  | nil : Settled []
  | ordinary {c : Char} {text : List Char} : c ≠ '\\' → Settled text → Settled (c :: text)
  | escape (c : Char) {text : List Char} : Settled text → Settled ('\\' :: c :: text)

namespace Settled

variable {c : Char} {p q text : List Char}

lemma of_cons (h : Settled (c :: text)) (hc : c ≠ '\\') : Settled text := by
  cases h with
  | ordinary _ htext => exact htext
  | escape => exact absurd rfl hc

lemma exists_cons (h : Settled ('\\' :: text)) : ∃ d rest, text = d :: rest ∧ Settled rest := by
  cases h with
  | ordinary hc _ => exact absurd rfl hc
  | escape d hrest => exact ⟨d, _, rfl, hrest⟩

lemma append (hp : Settled p) (hq : Settled q) : Settled (p ++ q) := by
  induction hp with
  | nil => exact hq
  | ordinary hc _ ih => exact .ordinary hc ih
  | escape c _ ih => exact .escape c ih

lemma of_not_mem (h : '\\' ∉ p) : Settled p := by
  induction p with
  | nil => exact .nil
  | cons c p ih =>
    apply ordinary
    · exact fun hc => h (hc ▸ List.mem_cons_self)
    · exact ih fun hmem => h (List.mem_cons_of_mem c hmem)

lemma of_append_of_not_mem (h : Settled (p ++ text)) (hp : '\\' ∉ p) : Settled text := by
  induction p with
  | nil => exact h
  | cons c p ih =>
    apply ih
    · exact h.of_cons fun hc => hp (hc ▸ List.mem_cons_self)
    · exact fun hmem => hp (List.mem_cons_of_mem c hmem)

/-- Behind a character that is no backslash nothing waits, wherever the text before it came from. -/
theorem of_append (hc : c ≠ '\\') {p : List Char} (h : Settled (p ++ c :: text)) :
    Settled text := by
  cases p with
  | nil => exact h.of_cons hc
  | cons d p =>
    by_cases hd : d = '\\'
    · subst hd
      obtain ⟨e, rest, heq, hrest⟩ := exists_cons h
      cases p with
      | nil =>
        obtain ⟨-, rfl⟩ := List.cons.inj heq
        exact hrest
      | cons e' p =>
        obtain ⟨-, rfl⟩ := List.cons.inj heq
        exact of_append hc hrest
    · exact of_append hc (h.of_cons hd)

end Settled

/-- What an escape of hexadecimal digits takes of the text behind it. -/
def leadingBlank : List Char → List Char
  | [] => []
  | c :: _ => if isBlank c then [c] else []

def afterBlank : List Char → List Char
  | [] => []
  | c :: text => if isBlank c then text else c :: text

section Escapes

variable {t : List Char}

lemma splitHex_append_tail (ht : ∀ c ∈ t.head?, isHexDigit c = false) :
    ∀ n x, splitHex n (x ++ t) = ((splitHex n x).1, (splitHex n x).2 ++ t)
  | 0, x => by simp [splitHex]
  | n + 1, [] => by
    cases t with
    | nil => rfl
    | cons c t => simp [splitHex, ht c rfl]
  | n + 1, c :: x => by
    rw [List.cons_append, splitHex, splitHex, splitHex_append_tail ht n x]
    split <;> rfl

lemma splitHex_digits (n : Nat) (x : List Char) :
    ∀ c ∈ (splitHex n x).1, isHexDigit c = true := by
  induction n generalizing x with
  | zero => simp [splitHex]
  | succ n ih =>
    cases x with
    | nil => simp [splitHex]
    | cons c x =>
      rw [splitHex]
      by_cases hc : isHexDigit c = true
      · rw [if_pos hc]
        intro d hd
        obtain rfl | hd := List.mem_cons.mp hd
        · exact hc
        · exact ih x d hd
      · rw [if_neg hc]
        simp

/-- An escape ends within a text, or it takes a blank of the tail as well. -/
theorem escape?_append_tail {x : List Char} (hx : Settled ('\\' :: x)) :
    (∀ t : List Char, (∀ c ∈ t.head?, isHexDigit c = false) → escape? (x ++ t) = none) ∨
      (∃ raw value rest, x = raw ++ rest ∧ Settled rest ∧
        ∀ t : List Char, (∀ c ∈ t.head?, isHexDigit c = false) →
          escape? (x ++ t) = some ⟨raw, value, rest ++ t⟩) ∨
      ∃ value, ∀ t : List Char, (∀ c ∈ t.head?, isHexDigit c = false) →
        escape? (x ++ t) = some ⟨x ++ leadingBlank t, value, afterBlank t⟩ := by
  obtain ⟨c, rest, rfl, hrest⟩ := hx.exists_cons
  have happ := splitHex_append 6 (c :: rest)
  have hdigits := splitHex_digits 6 (c :: rest)
  have htail := fun (t : List Char) ht => splitHex_append_tail (t := t) ht 6 (c :: rest)
  generalize splitHex 6 (c :: rest) = split at happ hdigits htail
  obtain ⟨digits, after⟩ := split
  dsimp only at happ hdigits htail
  have hnot : ∀ d, isHexDigit d = true → d ≠ '\\' := by
    rintro d hd rfl
    exact absurd hd (by decide)
  cases digits with
  | nil =>
    obtain rfl : after = c :: rest := happ
    cases hend : isLineEnd c with
    | true =>
      left
      intro t ht
      rw [escape?, htail t ht]
      simp [hend]
    | false =>
      right; left
      refine ⟨[c], c, rest, rfl, hrest, fun t ht => ?_⟩
      rw [escape?, htail t ht]
      simp [hend]
  | cons d digits =>
    cases after with
    | nil =>
      right; right
      rw [List.append_nil] at happ
      refine ⟨charOfCode (hexNumber (d :: digits)), fun t ht => ?_⟩
      rw [escape?, htail t ht, ← happ, List.nil_append]
      cases t with
      | nil => simp [leadingBlank, afterBlank]
      | cons e t =>
        by_cases he : isBlank e = true
        · simp [leadingBlank, afterBlank, he]
        · simp [leadingBlank, afterBlank, he]
    | cons e after =>
      right; left
      obtain ⟨rfl, htext⟩ := List.cons.inj happ
      have hsettled : Settled (e :: after) := by
        rw [← htext] at hrest
        exact hrest.of_append_of_not_mem fun hmem =>
          hnot _ (hdigits _ (List.mem_cons_of_mem _ hmem)) rfl
      by_cases he : isBlank e = true
      · have hslash : e ≠ '\\' := by
          rintro rfl
          exact absurd he (by decide)
        refine ⟨d :: digits ++ [e], charOfCode (hexNumber (d :: digits)), after, by simp [← htext],
          hsettled.of_cons hslash, fun t ht => ?_⟩
        rw [escape?, htail t ht]
        simp [he]
      · refine ⟨d :: digits, charOfCode (hexNumber (d :: digits)), e :: after, by simp [← htext],
          hsettled, fun t ht => ?_⟩
        rw [escape?, htail t ht]
        simp [he]

end Escapes

section Identifiers

open Written

lemma isWordChar_of_isHexDigit {c : Char} (hc : isHexDigit c = true) : isWordChar c = true := by
  simp only [isHexDigit, Bool.or_eq_true, Bool.and_eq_true, decide_eq_true_eq] at hc
  have hletter : c.isAlphanum = true := by
    unfold Char.isAlphanum Char.isAlpha Char.isLower Char.isUpper
    simp only [Bool.or_eq_true, Bool.and_eq_true, decide_eq_true_eq]
    obtain (hdigit | ⟨hle, hlt⟩) | ⟨hle, hlt⟩ := hc
    · exact .inr hdigit
    · exact .inl (.inr ⟨hle, Char.le_trans hlt (by decide : 'f' ≤ 'z')⟩)
    · exact .inl (.inl ⟨hle, Char.le_trans hlt (by decide : 'F' ≤ 'Z')⟩)
  rw [isWordChar, hletter]
  rfl

lemma Written.Boundary.isHexDigit_head {t : List Char} (ht : Boundary t) :
    ∀ c ∈ t.head?, isHexDigit c = false := by
  intro c hc
  cases hhex : isHexDigit c with
  | false => rfl
  | true =>
    have hstop := (ht c hc).1
    simp [continuesIdentifier, isWordChar_of_isHexDigit hhex] at hstop

lemma identifierUnit?_append_tail {c : Char} {x : List Char} (hx : Settled (c :: x)) :
    (∀ t, Boundary t → identifierUnit? (c :: x ++ t) = none) ∨
      (∃ unit rest, c :: x = unit ++ rest ∧ unit ≠ [] ∧ Settled rest ∧
        ∀ t, Boundary t → identifierUnit? (c :: x ++ t) = some (unit, rest ++ t)) ∨
      ∀ t, Boundary t →
        identifierUnit? (c :: x ++ t) = some (c :: x ++ leadingBlank t, afterBlank t) := by
  by_cases hslash : c = '\\'
  · subst hslash
    obtain hnone | ⟨raw, value, rest, heq, hrest, hsome⟩ | ⟨value, hopen⟩ := escape?_append_tail hx
    · left
      intro t ht
      rw [List.cons_append, identifierUnit?, if_pos rfl, hnone t ht.isHexDigit_head,
        Option.map_none]
    · right; left
      refine ⟨'\\' :: raw, rest, by rw [heq]; rfl, List.cons_ne_nil _ _, hrest, fun t ht => ?_⟩
      rw [List.cons_append, identifierUnit?, if_pos rfl, hsome t ht.isHexDigit_head,
        Option.map_some]
    · right; right
      intro t ht
      rw [List.cons_append, identifierUnit?, if_pos rfl, hopen t ht.isHexDigit_head,
        Option.map_some]
      rfl
  · by_cases hplain : (isWordChar c || !isAscii c) = true
    · right; left
      refine ⟨[c], x, rfl, List.cons_ne_nil _ _, hx.of_cons hslash, fun t _ => ?_⟩
      rw [List.cons_append, identifierUnit?, if_neg hslash, if_pos hplain]
    · left
      intro t _
      rw [List.cons_append, identifierUnit?, if_neg hslash, if_neg hplain]

lemma splitIdentifier_of_unit {text unit rest : List Char}
    (h : identifierUnit? text = some (unit, rest)) :
    splitIdentifier text = (unit ++ (splitIdentifier rest).1, (splitIdentifier rest).2) := by
  rw [splitIdentifier]
  split
  · rename_i heq
    exact nomatch h.symm.trans heq
  · rename_i heq
    obtain ⟨rfl, rfl⟩ := Prod.mk.inj (Option.some.inj (h.symm.trans heq))
    rfl

/-- An identifier ends within a text, or it takes a blank of the tail and goes on behind it. -/
theorem splitIdentifier_append_tail {x : List Char} (hx : Settled x) :
    (∃ name rest, x = name ++ rest ∧ Settled rest ∧
        ∀ t, Boundary t → splitIdentifier (x ++ t) = (name, rest ++ t)) ∨
      x ≠ [] ∧ ∀ t, Boundary t → splitIdentifier (x ++ t) =
        (x ++ (leadingBlank t ++ (splitIdentifier (afterBlank t)).1),
          (splitIdentifier (afterBlank t)).2) := by
  cases x with
  | nil =>
    left
    exact ⟨[], [], rfl, .nil, fun t ht => splitIdentifier_stop ht.identifierUnit?_eq_none⟩
  | cons c x =>
    obtain hnone | ⟨unit, rest, heq, hne, hrest, hsome⟩ | hopen := identifierUnit?_append_tail hx
    · left
      exact ⟨[], c :: x, rfl, hx, fun t ht => splitIdentifier_stop (hnone t ht)⟩
    · have hlength : rest.length < x.length + 1 := by
        have hlen := congrArg List.length heq
        have hpos := List.length_pos_iff.mpr hne
        rw [List.length_cons, List.length_append] at hlen
        omega
      obtain ⟨name, rest', rfl, hrest', hname⟩ | ⟨hne', hopen⟩ := splitIdentifier_append_tail hrest
      · left
        refine ⟨unit ++ name, rest', by rw [heq, List.append_assoc], hrest', fun t ht => ?_⟩
        rw [splitIdentifier_of_unit (hsome t ht), hname t ht]
      · right
        refine ⟨List.cons_ne_nil _ _, fun t ht => ?_⟩
        rw [splitIdentifier_of_unit (hsome t ht), hopen t ht, heq, List.append_assoc]
    · right
      refine ⟨List.cons_ne_nil _ _, fun t ht => ?_⟩
      rw [splitIdentifier_of_unit (hopen t ht), List.append_assoc]
termination_by x.length

/-- Like `splitIdentifier_append_tail`, for identifiers that are not empty. -/
theorem identifier?_append_tail {x : List Char} (hx : Settled x) :
    (∀ t, Boundary t → identifier? (x ++ t) = none) ∨
      (∃ name rest, x = name ++ rest ∧ name ≠ [] ∧ Settled rest ∧
        ∀ t, Boundary t → identifier? (x ++ t) = some (name, rest ++ t)) ∨
      x ≠ [] ∧ ∀ t, Boundary t → identifier? (x ++ t) =
        some (x ++ (leadingBlank t ++ (splitIdentifier (afterBlank t)).1),
          (splitIdentifier (afterBlank t)).2) := by
  obtain ⟨name, rest, heq, hrest, hname⟩ | ⟨hne, hopen⟩ := splitIdentifier_append_tail hx
  · cases name with
    | nil =>
      left
      intro t ht
      rw [identifier?, hname t ht]
    | cons c name =>
      right; left
      refine ⟨c :: name, rest, heq, List.cons_ne_nil _ _, hrest, fun t ht => ?_⟩
      rw [identifier?, hname t ht]
  · right; right
    obtain ⟨c, x, rfl⟩ := List.exists_cons_of_ne_nil hne
    refine ⟨hne, fun t ht => ?_⟩
    rw [identifier?, hopen t ht]
    rfl

end Identifiers

section Blanks

variable {x t : List Char}

lemma dropBlanks_append (x t : List Char) :
    dropBlanks (x ++ t) = if (dropBlanks x).isEmpty then dropBlanks t else dropBlanks x ++ t :=
  List.dropWhile_append

lemma dropBlanks_append_of_nil (h : dropBlanks x = []) : dropBlanks (x ++ t) = dropBlanks t := by
  rw [dropBlanks_append, h]
  rfl

lemma dropBlanks_append_of_cons {c : Char} {rest : List Char} (h : dropBlanks x = c :: rest) :
    dropBlanks (x ++ t) = c :: rest ++ t := by
  rw [dropBlanks_append, h]
  rfl

lemma Settled.dropBlanks (h : Settled x) : Settled (dropBlanks x) := by
  have hblank : '\\' ∉ x.takeWhile isBlank := by
    intro hmem
    exact absurd (List.mem_takeWhile_imp hmem) (by decide)
  have happ : x.takeWhile isBlank ++ TreeQuery.dropBlanks x = x := List.takeWhile_append_dropWhile
  rw [← happ] at h
  exact h.of_append_of_not_mem hblank

end Blanks

/-- Whether a text starts neither with the end of an attribute test nor with an operator. -/
def Barren (text : List Char) : Prop :=
  closeBracket? text = none ∧ attributeOperator? (dropBlanks text) = none

/-- Whether a text that follows a token leaves the reading of what is in front of it alone: no name
goes on there, nothing is quoted or closed there, and no attribute test comes to its end with a name
that starts there or with the blank that an escape may take. -/
structure Tail (t : List Char) : Prop where
  boundary : Written.Boundary t
  unclosed : ∀ c ∈ t.head?, c ∉ [')', '=']
  unquoted : ∀ c ∈ (dropBlanks t).head?, c ∉ ['\'', '"']
  barren : Barren t
  barren_name : ∀ name rest, identifier? (dropBlanks t) = some (name, rest) → Barren rest
  barren_open : Barren (splitIdentifier (afterBlank t)).2

/-- Whether a text can stand between a token and the text `y`. No argument ends in it and, where
more text follows, no pseudo-class begins in it. -/
structure Piece (y patch : List Char) : Prop where
  inert : Inert patch
  tail : Tail (patch ++ y)
  unclosed : ')' ∉ patch
  silent : y ≠ [] → ':' ∉ patch

/-- A piece of which `broken` says whether it ends the line. -/
structure Patch (broken : Prop) (y patch : List Char) : Prop extends Piece y patch where
  line : y ≠ [] → ('\n' ∈ patch ↔ broken)

/-- What a reader finds at the start of `x`, whatever piece stands between `x` and `y`: nothing, the
same thing within `x`, or something that ends in `y`. -/
inductive Reading {α : Type} (read : List Char → Option (α × List Char))
    (x y : List Char) : Prop
  | fails : (∀ p, Piece y p → read (x ++ (p ++ y)) = none) → Reading read x y
  | within (a : α) (rest : List Char) : rest <:+ x → Settled rest →
      (∀ p, Piece y p → read (x ++ (p ++ y)) = some (a, rest ++ (p ++ y))) →
        Reading read x y
  | past (rest : List Char) : rest <:+ y →
      (∀ p, Piece y p → ∃ a, read (x ++ (p ++ y)) = some (a, rest)) →
        Reading read x y

namespace Reading

variable {α β : Type} {read : List Char → Option (α × List Char)} {x y : List Char}

lemma map (h : Reading read x y) (f : α → β) :
    Reading (fun t => (read t).map fun (a, rest) => (f a, rest)) x y := by
  cases h with
  | fails hnone => exact .fails fun p hp => by rw [hnone p hp, Option.map_none]
  | within a rest hsuffix hrest hsome =>
    exact .within (f a) rest hsuffix hrest fun p hp => by rw [hsome p hp, Option.map_some]
  | past rest hsuffix hsome =>
    refine .past rest hsuffix fun p hp => ?_
    obtain ⟨a, ha⟩ := hsome p hp
    exact ⟨f a, by rw [ha, Option.map_some]⟩

/-- What is read behind a part of the text that every piece leaves alone. -/
theorem of_suffix {read' : List Char → Option (α × List Char)} {x' : List Char}
    (h : Reading read' x' y) (hsuffix : x' <:+ x)
    (heq : ∀ p, Piece y p → read (x ++ (p ++ y)) = read' (x' ++ (p ++ y))) :
    Reading read x y := by
  cases h with
  | fails hnone => exact .fails fun p hp => by rw [heq p hp, hnone p hp]
  | within a rest hrest hsettled hsome =>
    exact .within a rest (hrest.trans hsuffix) hsettled fun p hp => by rw [heq p hp, hsome p hp]
  | past rest hrest hsome => exact .past rest hrest fun p hp => by rw [heq p hp]; exact hsome p hp

end Reading

section Quotes

variable {quote : Char} (hquote : quote ∈ ['\'', '"'])
include hquote

lemma reading_quotedBody? {x : List Char} (hx : Settled x) (y : List Char) :
    Reading (quotedBody? quote) x y := by
  induction hx with
  | nil =>
    cases hread : quotedBody? quote y with
    | none =>
      refine .fails fun p hp => ?_
      rw [List.nil_append, hp.inert.quotedBody?_append hquote, hread, Option.map_none]
    | some found =>
      obtain ⟨body, rest⟩ := found
      refine .past rest (quotedBody?_suffix hread) fun p hp => ⟨p ++ body, ?_⟩
      rw [List.nil_append, hp.inert.quotedBody?_append hquote, hread, Option.map_some]
  | @ordinary c x hslash hx ih =>
    by_cases hc : c = quote
    · refine .within [] x (List.suffix_cons _ _) hx fun p _ => ?_
      rw [List.cons_append, quotedBody?, if_pos hc]
      · exact fun h _ => hslash h
      · exact fun _ _ h _ => hslash h
    · refine (ih.map fun body => c :: body).of_suffix (List.suffix_cons _ _) fun p _ => ?_
      rw [List.cons_append, quotedBody?, if_neg hc]
      · exact fun h _ => hslash h
      · exact fun _ _ h _ => hslash h
  | @escape c x hx ih =>
    by_cases hc : c = '\n'
    · refine .fails fun p _ => ?_
      rw [List.cons_append, List.cons_append, quotedBody?, if_pos hc]
    · refine (ih.map fun body => '\\' :: c :: body).of_suffix (List.suffix_append ['\\', c] x)
        fun p _ => ?_
      rw [List.cons_append, List.cons_append, quotedBody?, if_neg hc]

end Quotes

section Attributes

lemma closeBracket?_append {x : List Char} (hx : Settled x) :
    (∀ t, closeBracket? t = none → closeBracket? (x ++ t) = none) ∨
      ∃ rest, rest <:+ x ∧ Settled rest ∧ ∀ t, closeBracket? (x ++ t) = some (rest ++ t) := by
  cases hdrop : dropBlanks x with
  | nil =>
    left
    intro t ht
    rwa [closeBracket?, dropBlanks_append_of_nil hdrop]
  | cons c rest =>
    have hsuffix : c :: rest <:+ x := hdrop ▸ dropBlanks_suffix x
    by_cases hc : c = ']'
    · right
      subst hc
      refine ⟨rest, (List.suffix_cons _ _).trans hsuffix,
        (hdrop ▸ hx.dropBlanks : Settled (']' :: rest)).of_cons (by decide), fun t => ?_⟩
      rw [closeBracket?, dropBlanks_append_of_cons hdrop]
      rfl
    · left
      intro t _
      rw [closeBracket?, dropBlanks_append_of_cons hdrop]
      split
      · rename_i heq
        exact absurd (List.cons.inj heq).1 hc
      · rfl

lemma attributeOperator?_append {c : Char} {x : List Char} (hx : Settled (c :: x)) :
    (∀ t, (∀ d ∈ t.head?, d ≠ '=') → attributeOperator? (c :: x ++ t) = none) ∨
      ∃ operator rest, rest <:+ x ∧ Settled rest ∧
        ∀ t, attributeOperator? (c :: x ++ t) = some (operator, rest ++ t) := by
  by_cases heq : c = '='
  · right
    subst heq
    exact ⟨.equals, x, List.suffix_refl _, hx.of_cons (by decide), fun t => rfl⟩
  · cases x with
    | nil =>
      left
      intro t ht
      cases t with
      | nil =>
        unfold attributeOperator?
        split <;> simp_all
      | cons d t =>
        have hd := ht d rfl
        unfold attributeOperator?
        split <;> simp_all
    | cons d x =>
      by_cases hd : d = '='
      · subst hd
        have hrest : c ≠ '\\' → Settled x := fun hc => (hx.of_cons hc).of_cons (by decide)
        by_cases hoperator : c ∈ ['!', '^', '$', '*', '~', '|']
        · right
          simp only [List.mem_cons, List.not_mem_nil, or_false] at hoperator
          obtain rfl | rfl | rfl | rfl | rfl | rfl := hoperator
          · exact ⟨_, x, List.suffix_cons _ _, hrest (by decide), fun t => rfl⟩
          · exact ⟨_, x, List.suffix_cons _ _, hrest (by decide), fun t => rfl⟩
          · exact ⟨_, x, List.suffix_cons _ _, hrest (by decide), fun t => rfl⟩
          · exact ⟨_, x, List.suffix_cons _ _, hrest (by decide), fun t => rfl⟩
          · exact ⟨_, x, List.suffix_cons _ _, hrest (by decide), fun t => rfl⟩
          · exact ⟨_, x, List.suffix_cons _ _, hrest (by decide), fun t => rfl⟩
        · left
          intro t _
          unfold attributeOperator?
          split <;> simp_all
      · left
        intro t _
        unfold attributeOperator?
        split <;> simp_all

/-- What was found, if a bracket closes it. -/
def closed? {α : Type} (found : α × List Char) : Option (α × List Char) :=
  (closeBracket? found.2).map fun rest => (found.1, rest)

/-- A value and the bracket that closes its test. -/
def closedValue? (text : List Char) : Option (List Char × List Char) :=
  (checkValue? (dropBlanks text)).bind closed?

/-- An operator with its value, if there is one, and the bracket that closes the test. -/
def afterName? (name text : List Char) : Option (AttributeTest × List Char) :=
  match attributeOperator? (dropBlanks text) with
  | some (operator, text) => (closedValue? text).map fun (value, rest) =>
      (.ofSpelling name (some (operator, value)), rest)
  | none => (closeBracket? text).map fun rest => (.ofSpelling name none, rest)

lemma closeBracket?_of_operator {text : List Char} {found : AttributeOperator × List Char}
    (h : attributeOperator? (dropBlanks text) = some found) : closeBracket? text = none := by
  rw [closeBracket?]
  split
  · rename_i heq
    rw [heq] at h
    exact nomatch h
  · rfl

lemma attributeTest?_eq (text : List Char) :
    attributeTest? ('[' :: text) =
      (identifier? (dropBlanks text)).bind fun (name, after) => afterName? name after := by
  rw [attributeTest?]
  cases identifier? (dropBlanks text) with
  | none => rfl
  | some found =>
    obtain ⟨name, after⟩ := found
    simp only [Option.bind_eq_bind, Option.bind_some, afterName?, comparison?, Option.pure_def]
    cases hoperator : attributeOperator? (dropBlanks after) with
    | none =>
      simp only [Option.bind_none]
      cases closeBracket? after <;> rfl
    | some found =>
      obtain ⟨operator, rest⟩ := found
      simp only [Option.bind_some, closedValue?]
      cases checkValue? (dropBlanks rest) with
      | none => simp [closeBracket?_of_operator hoperator]
      | some value =>
        simp only [Option.bind_some, closed?]
        cases closeBracket? value.2 <;> rfl

lemma Reading.close {α : Type} {read : List Char → Option (α × List Char)} {x y : List Char}
    (h : Reading read x y) : Reading (fun t => (read t).bind closed?) x y := by
  cases h with
  | fails hnone => exact .fails fun p hp => by rw [hnone p hp, Option.bind_none]
  | within a rest hsuffix hrest hsome =>
    obtain hnone | ⟨rest', hsuffix', hrest', hclose⟩ := closeBracket?_append hrest
    · refine .fails fun p hp => ?_
      simp only [hsome p hp, Option.bind_some, closed?, hnone _ hp.tail.barren.1, Option.map_none]
    · refine .within a rest' (hsuffix'.trans hsuffix) hrest' fun p hp => ?_
      simp only [hsome p hp, Option.bind_some, closed?, hclose, Option.map_some]
  | past rest hsuffix hsome =>
    cases hclose : closeBracket? rest with
    | none =>
      refine .fails fun p hp => ?_
      obtain ⟨a, ha⟩ := hsome p hp
      simp only [ha, Option.bind_some, closed?, hclose, Option.map_none]
    | some rest' =>
      refine .past rest' ((closeBracket?_suffix hclose).trans hsuffix) fun p hp => ?_
      obtain ⟨a, ha⟩ := hsome p hp
      exact ⟨a, by simp only [ha, Option.bind_some, closed?, hclose, Option.map_some]⟩

/-- A name that the tail goes on with ends where no attribute test does. -/
theorem reading_identifier?_bind {α : Type} {x y : List Char} (hx : Settled x)
    {next : List Char → List Char → Option (α × List Char)}
    (hnext : ∀ name rest, Settled rest → Reading (next name) rest y)
    (hbarren : ∀ name rest, Barren rest → next name rest = none) :
    Reading (fun t => (identifier? t).bind fun (name, after) => next name after) x y := by
  obtain hnone | ⟨name, rest, rfl, -, hrest, hsome⟩ | ⟨-, hopen⟩ := identifier?_append_tail hx
  · exact .fails fun p hp => by rw [hnone _ hp.tail.boundary, Option.bind_none]
  · refine (hnext name rest hrest).of_suffix (List.suffix_append _ _) fun p hp => ?_
    rw [hsome _ hp.tail.boundary, Option.bind_some]
  · refine .fails fun p hp => ?_
    rw [hopen _ hp.tail.boundary, Option.bind_some]
    exact hbarren _ _ hp.tail.barren_open

lemma checkValue?_of_unquoted {text : List Char} (h : ∀ c ∈ text.head?, c ∉ ['\'', '"']) :
    checkValue? text = identifier? text := by
  unfold checkValue?
  split
  · exact absurd (h _ rfl) (by simp)
  · exact absurd (h _ rfl) (by simp)
  · rfl

lemma reading_closedValue? {x : List Char} (hx : Settled x) (y : List Char) :
    Reading closedValue? x y := by
  have hbarren : ∀ value rest : List Char, Barren rest → closed? (value, rest) = none := by
    intro value rest hrest
    simp only [closed?, hrest.1, Option.map_none]
  cases hdrop : dropBlanks x with
  | nil =>
    refine .fails fun p hp => ?_
    rw [closedValue?, dropBlanks_append_of_nil hdrop, checkValue?_of_unquoted hp.tail.unquoted]
    cases hname : identifier? (dropBlanks (p ++ y)) with
    | none => rfl
    | some found =>
      rw [Option.bind_some]
      exact hbarren _ _ (hp.tail.barren_name _ _ hname)
  | cons c rest =>
    have hsuffix : c :: rest <:+ x := hdrop ▸ dropBlanks_suffix x
    have hsettled : Settled (c :: rest) := hdrop ▸ hx.dropBlanks
    by_cases hquote : c ∈ ['\'', '"']
    · have hslash : c ≠ '\\' := by
        rintro rfl
        exact absurd hquote (by decide)
      have hread : ∀ t, checkValue? (c :: t) = quotedBody? c t := by
        intro t
        simp only [List.mem_cons, List.not_mem_nil, or_false] at hquote
        obtain rfl | rfl := hquote <;> rfl
      refine (reading_quotedBody? hquote (hsettled.of_cons hslash) y).close.of_suffix
        ((List.suffix_cons _ _).trans hsuffix) fun p _ => ?_
      rw [closedValue?, dropBlanks_append_of_cons hdrop, List.cons_append, hread]
    · have hread : ∀ t, checkValue? (c :: t) = identifier? (c :: t) := by
        intro t
        exact checkValue?_of_unquoted (by rintro d ⟨⟩; exact hquote)
      have hclose : ∀ (value : List Char) rest, Settled rest →
          Reading (fun after => closed? (value, after)) rest y := by
        intro value rest hrest
        obtain hnone | ⟨rest', hsuffix', hrest', hsome⟩ := closeBracket?_append hrest
        · refine .fails fun p hp => ?_
          simp only [closed?, hnone _ hp.tail.barren.1, Option.map_none]
        · refine .within value rest' hsuffix' hrest' fun p _ => ?_
          simp only [closed?, hsome, Option.map_some]
      refine (reading_identifier?_bind hsettled hclose hbarren).of_suffix hsuffix fun p _ => ?_
      rw [closedValue?, dropBlanks_append_of_cons hdrop, List.cons_append, hread]

lemma afterName?_of_barren {name text : List Char} (h : Barren text) :
    afterName? name text = none := by
  rw [afterName?, h.2, h.1]
  rfl

lemma reading_afterName? {x : List Char} (hx : Settled x) (name y : List Char) :
    Reading (afterName? name) x y := by
  cases hdrop : dropBlanks x with
  | nil =>
    refine .fails fun p hp => ?_
    have hclose : closeBracket? (x ++ (p ++ y)) = none := by
      rw [closeBracket?, dropBlanks_append_of_nil hdrop]
      exact hp.tail.barren.1
    rw [afterName?, dropBlanks_append_of_nil hdrop, hp.tail.barren.2, hclose]
    rfl
  | cons c rest =>
    have hsuffix : c :: rest <:+ x := hdrop ▸ dropBlanks_suffix x
    have hsettled : Settled (c :: rest) := hdrop ▸ hx.dropBlanks
    obtain hnone | ⟨operator, rest', hsuffix', hrest', hsome⟩ := attributeOperator?_append hsettled
    · have hoperator : ∀ p, Piece y p →
          afterName? name (x ++ (p ++ y)) = (closeBracket? (x ++ (p ++ y))).map fun rest =>
            (.ofSpelling name none, rest) := by
        intro p hp
        have hhead : ∀ d ∈ (p ++ y).head?, d ≠ '=' := fun d hd heq =>
          hp.tail.unclosed d hd (by simp [heq])
        rw [afterName?, dropBlanks_append_of_cons hdrop, hnone _ hhead]
      obtain hclose | ⟨after, hafter, hsettled', hclose⟩ := closeBracket?_append hx
      · refine .fails fun p hp => ?_
        rw [hoperator p hp, hclose _ hp.tail.barren.1, Option.map_none]
      · refine .within (.ofSpelling name none) after hafter hsettled' fun p hp => ?_
        rw [hoperator p hp, hclose, Option.map_some]
    · have hvalue : Reading closedValue? rest' y := reading_closedValue? hrest' y
      refine (hvalue.map fun value => .ofSpelling name (some (operator, value))).of_suffix
        (hsuffix'.trans ((List.suffix_cons _ _).trans hsuffix)) fun p _ => ?_
      rw [afterName?, dropBlanks_append_of_cons hdrop, hsome]

/-- An attribute test ends within a text, or in a value that goes on behind the patch. -/
theorem reading_attributeTest? {x : List Char} (hx : Settled x) (y : List Char) :
    Reading (fun t => attributeTest? ('[' :: t)) x y := by
  cases hdrop : dropBlanks x with
  | nil =>
    refine .fails fun p hp => ?_
    rw [attributeTest?_eq, dropBlanks_append_of_nil hdrop]
    cases hname : identifier? (dropBlanks (p ++ y)) with
    | none => rfl
    | some found =>
      rw [Option.bind_some]
      exact afterName?_of_barren (hp.tail.barren_name _ _ hname)
  | cons c rest =>
    have hsuffix : c :: rest <:+ x := hdrop ▸ dropBlanks_suffix x
    have hsettled : Settled (c :: rest) := hdrop ▸ hx.dropBlanks
    have hnext : ∀ name rest, Settled rest → Reading (afterName? name) rest y :=
      fun name _ hrest => reading_afterName? hrest name y
    have hread := reading_identifier?_bind hsettled hnext fun _ _ => afterName?_of_barren
    refine hread.of_suffix hsuffix fun p _ => ?_
    rw [attributeTest?_eq, dropBlanks_append_of_cons hdrop]

end Attributes

end TreeQuery
