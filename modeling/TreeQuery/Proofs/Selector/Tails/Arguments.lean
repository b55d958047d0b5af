import TreeQuery.Proofs.Selector.Tails.Attributes

/-!
# Arguments in front of a tail

An argument that closes within a text is read from it whatever patch stands behind the text. One
that does not close there takes the patch as a part of it, or there is none.
-/

namespace TreeQuery

open Written

variable {broken : Prop} {x y : List Char}

section Plain

lemma before_append_left (p rest : List Char) : before (p ++ rest) rest = p := by
  simp [before]

lemma splitPlain_suffix (text : List Char) : (splitPlain text).2 <:+ text :=
  ⟨_, splitPlain_append text⟩

lemma splitPlain_bracket {inner : List Char} (h : attributeTest? ('[' :: inner) = none) :
    splitPlain ('[' :: inner) = ([], '[' :: inner) := by
  rw [splitPlain]
  split
  · rename_i heq
    cases h.symm.trans heq
  · rfl

lemma splitPlain_attribute {inner rest : List Char} {test : AttributeTest}
    (h : attributeTest? ('[' :: inner) = some (test, rest)) :
    splitPlain ('[' :: inner) =
      (before ('[' :: inner) rest ++ (splitPlain rest).1, (splitPlain rest).2) := by
  rw [splitPlain]
  split
  · rename_i heq
    obtain ⟨rfl, rfl⟩ := Prod.mk.inj (Option.some.inj (h.symm.trans heq))
    rfl
  · rename_i heq
    cases h.symm.trans heq

lemma splitPlain_cons {c : Char} (hbracket : c ≠ '[') (hslash : c ≠ '\\') (rest : List Char) :
    splitPlain (c :: rest) =
      if c = '(' ∨ c = ')' ∨ c = ']' then ([], c :: rest)
      else (c :: (splitPlain rest).1, (splitPlain rest).2) := by
  rw [splitPlain]
  · simp only [Bool.or_eq_true, decide_eq_true_eq, or_assoc]
  · exact fun h => hbracket h
  · exact fun h _ => hslash h
  · exact fun _ _ h _ => hslash h

/-- A reading without nested parentheses stops within a text or passes over the patch as well. -/
theorem reading_splitPlain {x : List Char} (hx : Settled x) (y : List Char) :
    Reading (fun t => some (splitPlain t)) x y := by
  cases x with
  | nil =>
    refine .past (splitPlain y).2 (splitPlain_suffix y) fun p hp => ⟨p ++ (splitPlain y).1, ?_⟩
    rw [List.nil_append, Passes.of_inert hp.inert]
  | cons c x =>
    by_cases hbracket : c = '['
    · subst hbracket
      have hx' : Settled x := hx.of_cons (by decide)
      obtain hnone | ⟨test, rest, hsuffix, hrest, hsome⟩ | ⟨rest, hsuffix, hsome⟩ :=
        reading_attributeTest? hx' y
      · refine .within [] ('[' :: x) (List.suffix_refl _) hx fun p hp => ?_
        rw [List.cons_append, splitPlain_bracket (hnone p hp)]
      · obtain ⟨raw, rfl⟩ := hsuffix
        have hlength : rest.length < raw.length + rest.length + 1 := by omega
        refine ((reading_splitPlain hrest y).map fun plain => '[' :: raw ++ plain).of_suffix
          (List.suffix_append ('[' :: raw) rest) fun p hp => ?_
        have hbefore : before ('[' :: (raw ++ rest ++ (p ++ y))) (rest ++ (p ++ y)) =
            '[' :: raw := by
          rw [List.append_assoc]
          exact before_append_left ('[' :: raw) _
        rw [List.cons_append, splitPlain_attribute (hsome p hp), hbefore]
        rfl
      · refine .past (splitPlain rest).2 ((splitPlain_suffix rest).trans hsuffix) fun p hp => ?_
        obtain ⟨test, htest⟩ := hsome p hp
        exact ⟨_, by rw [List.cons_append, splitPlain_attribute htest]⟩
    · by_cases hslash : c = '\\'
      · subst hslash
        obtain ⟨d, x, rfl, hx'⟩ := hx.exists_cons
        by_cases hd : d = '\n'
        · refine .within [] ('\\' :: d :: x) (List.suffix_refl _) hx fun p _ => ?_
          rw [List.cons_append, List.cons_append, splitPlain, if_pos hd]
        · refine ((reading_splitPlain hx' y).map fun plain => '\\' :: d :: plain).of_suffix
            (List.suffix_append ['\\', d] x) fun p _ => ?_
          rw [List.cons_append, List.cons_append, splitPlain, if_neg hd]
          rfl
      · have hx' : Settled x := hx.of_cons hslash
        by_cases hstop : c = '(' ∨ c = ')' ∨ c = ']'
        · refine .within [] (c :: x) (List.suffix_refl _) hx fun p _ => ?_
          rw [List.cons_append, splitPlain_cons hbracket hslash, if_pos hstop]
        · refine ((reading_splitPlain hx' y).map fun plain => c :: plain).of_suffix
            (List.suffix_cons c x) fun p _ => ?_
          rw [List.cons_append, splitPlain_cons hbracket hslash, if_neg hstop]
          rfl
termination_by x.length

end Plain

section Closing

/-- What was found, if a closing parenthesis follows. -/
def parenthesized? {α : Type} : α × List Char → Option (α × List Char)
  | (a, ')' :: rest) => some (a, rest)
  | _ => none

/-- What a reader of arguments finds: like `Reading`, but with the parenthesis that ends what is
found within the text. -/
inductive Closing {α : Type} (read : List Char → Option (α × List Char))
    (x y : List Char) : Prop
  | fails : (∀ p, Piece y p → read (x ++ (p ++ y)) = none) → Closing read x y
  | within (a : α) (front rest : List Char) : x = front ++ ')' :: rest →
      (∀ p, Piece y p → read (x ++ (p ++ y)) = some (a, rest ++ (p ++ y))) →
        Closing read x y
  | past (rest : List Char) : rest <:+ y →
      (∀ p, Piece y p → ∃ a, read (x ++ (p ++ y)) = some (a, rest)) →
        Closing read x y

variable {α β : Type} {read : List Char → Option (α × List Char)}

lemma Reading.parenthesized (h : Reading read x y) :
    Closing (fun t => (read t).bind parenthesized?) x y := by
  have hother : ∀ (a : α) {rest : List Char}, (∀ c ∈ rest.head?, c ≠ ')') →
      parenthesized? (a, rest) = none := by
    intro a rest hrest
    unfold parenthesized?
    split
    · rename_i heq
      obtain ⟨rfl, rfl⟩ := Prod.mk.inj heq
      exact absurd rfl (hrest ')' rfl)
    · rfl
  cases h with
  | fails hnone => exact .fails fun p hp => by rw [hnone p hp, Option.bind_none]
  | within a rest hsuffix _ hsome =>
    cases rest with
    | nil =>
      refine .fails fun p hp => ?_
      rw [hsome p hp, Option.bind_some, List.nil_append]
      exact hother a fun c hc heq => hp.tail.unclosed c hc (by simp [heq])
    | cons c rest =>
      by_cases hc : c = ')'
      · obtain ⟨front, hx⟩ := hsuffix
        subst hc
        exact .within a front rest hx.symm fun p hp => by rw [hsome p hp]; rfl
      · refine .fails fun p hp => ?_
        rw [hsome p hp, Option.bind_some]
        exact hother a (by rintro d ⟨⟩; exact hc)
  | past rest hsuffix hsome =>
    by_cases hclose : ∃ after, rest = ')' :: after
    · obtain ⟨after, rfl⟩ := hclose
      refine .past after ((List.suffix_cons _ _).trans hsuffix) fun p hp => ?_
      obtain ⟨a, ha⟩ := hsome p hp
      exact ⟨a, by rw [ha]; rfl⟩
    · refine .fails fun p hp => ?_
      obtain ⟨a, ha⟩ := hsome p hp
      rw [ha, Option.bind_some]
      refine hother a fun c hc heq => hclose ?_
      obtain ⟨after, rfl⟩ := List.head?_eq_some_iff.mp (heq ▸ hc)
      exact ⟨after, rfl⟩

lemma Closing.map (h : Closing read x y) (f : α → β) :
    Closing (fun t => (read t).map fun (a, rest) => (f a, rest)) x y := by
  cases h with
  | fails hnone => exact .fails fun p hp => by rw [hnone p hp, Option.map_none]
  | within a front rest hx hsome =>
    exact .within (f a) front rest hx fun p hp => by rw [hsome p hp, Option.map_some]
  | past rest hsuffix hsome =>
    refine .past rest hsuffix fun p hp => ?_
    obtain ⟨a, ha⟩ := hsome p hp
    exact ⟨f a, by rw [ha, Option.map_some]⟩

lemma plainArgument?_eq (text : List Char) :
    plainArgument? text =
      (((some (splitPlain text)).bind parenthesized?).map fun (a, rest) => (.plain a, rest)) := by
  rw [plainArgument?, Option.bind_some]
  obtain ⟨plain, rest⟩ := splitPlain text
  unfold parenthesized?
  split
  · rename_i heq
    obtain ⟨rfl, rfl⟩ := Prod.mk.inj heq
    rfl
  · split
    · rename_i hother _ _ _ heq
      exact absurd heq (hother _ _)
    · rfl

lemma closing_plainArgument? (hx : Settled x) (y : List Char) :
    Closing plainArgument? x y := by
  have heq : plainArgument? = fun text =>
      (((some (splitPlain text)).bind parenthesized?).map fun (a, rest) => (.plain a, rest)) :=
    funext plainArgument?_eq
  rw [heq]
  exact (reading_splitPlain hx y).parenthesized.map _

def quoted? : List Char → Option (List Char × List Char)
  | '\'' :: inner => quotedBody? '\'' inner
  | '"' :: inner => quotedBody? '"' inner
  | _ => none

lemma quoted?_of_unquoted {text : List Char} (h : ∀ c ∈ text.head?, c ∉ ['\'', '"']) :
    quoted? text = none := by
  unfold quoted?
  split
  · exact absurd (h _ rfl) (by simp)
  · exact absurd (h _ rfl) (by simp)
  · rfl

lemma parenthesized?_quoted (body : Option (List Char × List Char)) :
    (match body with
      | some (body, ')' :: rest) => some (Argument.quoted body, rest)
      | _ => none) = (body.bind parenthesized?).map fun (a, rest) => (.quoted a, rest) := by
  cases body with
  | none => rfl
  | some found =>
    obtain ⟨body, rest⟩ := found
    rw [Option.bind_some]
    unfold parenthesized?
    split
    · rename_i heq
      obtain ⟨rfl, rfl⟩ := Prod.mk.inj (Option.some.inj heq)
      rfl
    · split
      · rename_i hother _ _ _ heq
        exact absurd (congrArg some heq) (hother _ _)
      · rfl

lemma quotedArgument?_eq (text : List Char) :
    quotedArgument? text =
      ((quoted? text).bind parenthesized?).map fun (a, rest) => (.quoted a, rest) :=
  parenthesized?_quoted (quoted? text)

lemma Tail.unquoted_head {t : List Char} (ht : Tail t) : ∀ c ∈ t.head?, c ∉ ['\'', '"'] := by
  intro c hc hquote
  obtain ⟨rest, rfl⟩ := List.head?_eq_some_iff.mp hc
  have hblank : isBlank c = false := by
    simp only [List.mem_cons, List.not_mem_nil, or_false] at hquote
    obtain rfl | rfl := hquote <;> decide
  have hdrop : dropBlanks (c :: rest) = c :: rest := by simp [dropBlanks, hblank]
  exact ht.unquoted c (by rw [hdrop]; rfl) hquote

lemma closing_quotedArgument? (hx : Settled x) (y : List Char) :
    Closing quotedArgument? x y := by
  have hread : Reading quoted? x y := by
    cases x with
    | nil => exact .fails fun p hp => quoted?_of_unquoted hp.tail.unquoted_head
    | cons c x =>
      by_cases hquote : c ∈ ['\'', '"']
      · have hslash : c ≠ '\\' := by
          rintro rfl
          exact absurd hquote (by decide)
        have heq : ∀ t, quoted? (c :: t) = quotedBody? c t := by
          intro t
          simp only [List.mem_cons, List.not_mem_nil, or_false] at hquote
          obtain rfl | rfl := hquote <;> rfl
        refine (reading_quotedBody? hquote (hx.of_cons hslash) y).of_suffix (List.suffix_cons _ _)
          fun p _ => ?_
        rw [List.cons_append, heq]
      · exact .fails fun p _ => quoted?_of_unquoted (by rintro d ⟨⟩; exact hquote)
  have heq : quotedArgument? = fun text =>
      (((quoted? text).bind parenthesized?).map fun (a, rest) => (.quoted a, rest)) :=
    funext quotedArgument?_eq
  rw [heq]
  exact hread.parenthesized.map _

end Closing

section Lines

/-- A character that ends a run of others ends it whatever comes behind. -/
theorem span_append_of_mem {f : Char → Bool} {d : Char} (hf : f d = false) {x : List Char}
    (hd : d ∈ x) (t : List Char) :
    (x ++ t).takeWhile f = x.takeWhile f ∧ (x ++ t).dropWhile f = x.dropWhile f ++ t ∧
      d ∈ x.dropWhile f := by
  induction x with
  | nil => exact absurd hd List.not_mem_nil
  | cons c x ih =>
    cases hc : f c with
    | true =>
      have hne : d ≠ c := by
        rintro rfl
        cases hf.symm.trans hc
      obtain ⟨htake, hdrop, hmem⟩ := ih (List.mem_of_ne_of_mem hne hd)
      simp only [List.cons_append, List.takeWhile_cons, List.dropWhile_cons, hc, if_true]
      exact ⟨congrArg (c :: ·) htake, hdrop, hmem⟩
    | false =>
      simp only [List.cons_append, List.takeWhile_cons, List.dropWhile_cons, hc, Bool.false_eq_true,
        if_false, true_and]
      exact hd

lemma splitLastParenthesis?_eq_none {text : List Char} (h : ')' ∉ text) :
    splitLastParenthesis? text = none := by
  cases hsplit : splitLastParenthesis? text with
  | none => rfl
  | some found =>
    have hmem := List.mem_append_right found.1 (List.mem_cons_self (a := ')') (l := found.2))
    exact absurd (splitLastParenthesis?_append hsplit ▸ hmem) h

lemma splitLastParenthesis?_append_of_none {t : List Char} (h : splitLastParenthesis? t = none)
    (x : List Char) :
    splitLastParenthesis? (x ++ t) =
      (splitLastParenthesis? x).map fun (inner, rest) => (inner, rest ++ t) := by
  induction x with
  | nil => exact h
  | cons c x ih =>
    rw [List.cons_append, splitLastParenthesis?, splitLastParenthesis?, ih]
    cases splitLastParenthesis? x with
    | none =>
      by_cases hc : c = ')'
      · simp [hc]
      · simp [hc]
    | some found => rfl

def firstLine (text : List Char) : List Char := text.takeWhile (· != '\n')

def belowLine (text : List Char) : List Char := text.dropWhile (· != '\n')

lemma firstLine_append_belowLine (text : List Char) : firstLine text ++ belowLine text = text :=
  List.takeWhile_append_dropWhile

lemma lineArgument?_eq (text : List Char) :
    lineArgument? text = (splitLastParenthesis? (firstLine text)).map fun (inner, rest) =>
      (.line inner, rest ++ belowLine text) :=
  rfl

lemma firstLine_append_of_break (h : '\n' ∈ x) (t : List Char) :
    firstLine (x ++ t) = firstLine x ∧ belowLine (x ++ t) = belowLine x ++ t := by
  have hspan := span_append_of_mem (f := (· != '\n')) (by decide) h t
  exact ⟨hspan.1, hspan.2.1⟩

lemma firstLine_append_of_unbroken (h : '\n' ∉ x) (t : List Char) :
    firstLine (x ++ t) = x ++ firstLine t ∧ belowLine (x ++ t) = belowLine t := by
  have hordinary : ∀ c ∈ x, (c != '\n') = true := by
    intro c hc
    simpa using fun heq : c = '\n' => h (heq ▸ hc)
  exact ⟨List.takeWhile_append_of_pos hordinary, List.dropWhile_append_of_pos hordinary⟩

/-- Where the line that a patch goes on with has no parenthesis, the last one in front counts. -/
theorem lineArgument?_append_of_none
    (h : ∀ p, Patch broken y p → splitLastParenthesis? (firstLine (p ++ y)) = none)
    (hunbroken : '\n' ∉ x) :
    (∀ p, Patch broken y p → lineArgument? (x ++ (p ++ y)) = none) ∨
      ∃ inner rest, x = inner ++ ')' :: rest ∧ ∀ p, Patch broken y p →
        lineArgument? (x ++ (p ++ y)) = some (.line inner, rest ++ (p ++ y)) := by
  cases hsplit : splitLastParenthesis? x with
  | none =>
    left
    intro p hp
    rw [lineArgument?_eq, (firstLine_append_of_unbroken hunbroken _).1,
      splitLastParenthesis?_append_of_none (h p hp), hsplit]
    rfl
  | some found =>
    obtain ⟨inner, rest⟩ := found
    right
    refine ⟨inner, rest, splitLastParenthesis?_append hsplit, fun p hp => ?_⟩
    obtain ⟨hfirst, hbelow⟩ := firstLine_append_of_unbroken hunbroken (p ++ y)
    rw [lineArgument?_eq, hfirst, splitLastParenthesis?_append_of_none (h p hp), hsplit, hbelow]
    simp only [Option.map_some, List.append_assoc, firstLine_append_belowLine]

lemma splitLastParenthesis?_firstLine {p : List Char} (h : ')' ∉ p) :
    splitLastParenthesis? (firstLine p) = none :=
  splitLastParenthesis?_eq_none fun hmem => h ((List.takeWhile_sublist _).mem hmem)

/-- The argument up to the last parenthesis of the line ends within a text, or it takes the whole of
it and the patch. -/
theorem lineArgument?_append_patch (broken : Prop) (x y : List Char) :
    (∀ p, Patch broken y p → lineArgument? (x ++ (p ++ y)) = none) ∨
      (∃ inner rest, x = inner ++ ')' :: rest ∧ ∀ p, Patch broken y p →
        lineArgument? (x ++ (p ++ y)) = some (.line inner, rest ++ (p ++ y))) ∨
      ∃ b rest, y = b ++ ')' :: rest ∧ ∀ p, Patch broken y p →
        lineArgument? (x ++ (p ++ y)) = some (.line (x ++ (p ++ b)), rest) := by
  by_cases hbreak : '\n' ∈ x
  · cases hsplit : splitLastParenthesis? (firstLine x) with
    | none =>
      left
      intro p _
      rw [lineArgument?_eq, (firstLine_append_of_break hbreak _).1, hsplit, Option.map_none]
    | some found =>
      obtain ⟨inner, rest⟩ := found
      right; left
      refine ⟨inner, rest ++ belowLine x, ?_, fun p _ => ?_⟩
      · rw [← List.cons_append, ← List.append_assoc, ← splitLastParenthesis?_append hsplit,
          firstLine_append_belowLine]
      · obtain ⟨hfirst, hbelow⟩ := firstLine_append_of_break hbreak (p ++ y)
        rw [lineArgument?_eq, hfirst, hsplit, hbelow, Option.map_some, List.append_assoc]
  · by_cases hline : y = [] ∨ broken
    · refine (lineArgument?_append_of_none (fun p hp => ?_) hbreak).imp_right .inl
      by_cases hy : y = []
      · rw [hy, List.append_nil]
        exact splitLastParenthesis?_firstLine hp.unclosed
      · have hp' : '\n' ∈ p := (hp.line hy).mpr (hline.resolve_left hy)
        rw [(firstLine_append_of_break hp' y).1]
        exact splitLastParenthesis?_firstLine hp.unclosed
    · obtain ⟨hy, hunbroken⟩ := not_or.mp hline
      have hfirst : ∀ p, Patch broken y p →
          firstLine (p ++ y) = p ++ firstLine y ∧ belowLine (p ++ y) = belowLine y := fun p hp =>
        firstLine_append_of_unbroken (fun hmem => hunbroken ((hp.line hy).mp hmem)) y
      cases hsplit : splitLastParenthesis? (firstLine y) with
      | none =>
        refine (lineArgument?_append_of_none (fun p hp => ?_) hbreak).imp_right .inl
        rw [(hfirst p hp).1, splitLastParenthesis?_append_of_none hsplit,
          splitLastParenthesis?_eq_none hp.unclosed]
        rfl
      | some found =>
        obtain ⟨b, rest⟩ := found
        right; right
        refine ⟨b, rest ++ belowLine y, ?_, fun p hp => ?_⟩
        · rw [← List.cons_append, ← List.append_assoc, ← splitLastParenthesis?_append hsplit,
            firstLine_append_belowLine]
        · obtain ⟨hline', hbelow⟩ := firstLine_append_of_unbroken hbreak (p ++ y)
          rw [lineArgument?_eq, hline', hbelow, (hfirst p hp).1, (hfirst p hp).2,
            splitLastParenthesis?_prepend (splitLastParenthesis?_prepend hsplit p) x]
          rfl

end Lines

/-- What an argument in front of a patch is. Where it is no rest of a line, every piece will do. -/
inductive ArgumentReading (broken : Prop) (x y : List Char) : Prop
  | absent : (∀ p, Patch broken y p → splitArgument (x ++ (p ++ y)) = (.absent, x ++ (p ++ y))) →
      ArgumentReading broken x y
  | closed (argument : Argument) (front rest : List Char) : x = front ++ ')' :: rest →
      (∀ p, Piece y p → splitArgument (x ++ (p ++ y)) = (argument, rest ++ (p ++ y))) →
        ArgumentReading broken x y
  | within (inner front rest : List Char) : x = front ++ ')' :: rest →
      (∀ p, Patch broken y p → splitArgument (x ++ (p ++ y)) = (.line inner, rest ++ (p ++ y))) →
        ArgumentReading broken x y
  | past (rest : List Char) : rest <:+ y →
      (∀ p, Piece y p → ∃ argument, splitArgument (x ++ (p ++ y)) = (argument, rest) ∧
        ∀ inner, argument ≠ .line inner) → ArgumentReading broken x y
  /-- Up to the last parenthesis of the line, which stands behind the patch. -/
  | line (a b rest : List Char) : x = '(' :: a → y = b ++ ')' :: rest →
      (∀ p, Patch broken y p → splitArgument (x ++ (p ++ y)) = (.line (a ++ (p ++ b)), rest)) →
        ArgumentReading broken x y

lemma splitArgument_of_unopened {text : List Char} (h : ∀ c ∈ text.head?, c ≠ '(') :
    splitArgument text = (.absent, text) := by
  unfold splitArgument
  split
  · exact absurd rfl (h '(' rfl)
  · rfl

lemma argumentReading (hx : Settled x) (broken : Prop) (y : List Char) :
    ArgumentReading broken x y := by
  cases x with
  | nil =>
    exact .absent fun p hp => splitArgument_of_unopened fun c hc => (hp.tail.boundary c hc).2
  | cons c a =>
    by_cases hopen : c = '('
    · subst hopen
      have ha : Settled a := hx.of_cons (by decide)
      have heq : ∀ t, splitArgument ('(' :: a ++ t) =
          (((quotedArgument? (a ++ t)).or (plainArgument? (a ++ t))).or
            (lineArgument? (a ++ t))).getD (.absent, '(' :: a ++ t) := fun t => rfl
      obtain hquoted | ⟨argument, front, rest, rfl, hquoted⟩ | ⟨rest, hsuffix, hquoted⟩ :=
        closing_quotedArgument? ha y
      · obtain hplain | ⟨argument, front, rest, rfl, hplain⟩ | ⟨rest, hsuffix, hplain⟩ :=
          closing_plainArgument? ha y
        · obtain hline | ⟨inner, rest, rfl, hline⟩ | ⟨b, rest, hy, hline⟩ :=
            lineArgument?_append_patch broken a y
          · refine .absent fun p hp => ?_
            rw [heq, hquoted p hp.toPiece, hplain p hp.toPiece, hline p hp]
            rfl
          · refine .within inner ('(' :: inner) rest rfl fun p hp => ?_
            rw [heq, hquoted p hp.toPiece, hplain p hp.toPiece, hline p hp]
            rfl
          · refine .line a b rest rfl hy fun p hp => ?_
            rw [heq, hquoted p hp.toPiece, hplain p hp.toPiece, hline p hp]
            rfl
        · refine .closed argument ('(' :: front) rest rfl fun p hp => ?_
          rw [heq, hquoted p hp, hplain p hp]
          rfl
        · refine .past rest hsuffix fun p hp => ?_
          obtain ⟨argument, hargument⟩ := hplain p hp
          refine ⟨argument, by rw [heq, hquoted p hp, hargument]; rfl, ?_⟩
          obtain ⟨plain, rfl, -⟩ := plainArgument?_splits hargument
          exact nofun
      · refine .closed argument ('(' :: front) rest rfl fun p hp => ?_
        rw [heq, hquoted p hp]
        rfl
      · refine .past rest hsuffix fun p hp => ?_
        obtain ⟨argument, hargument⟩ := hquoted p hp
        refine ⟨argument, by rw [heq, hargument]; rfl, ?_⟩
        obtain ⟨⟨body, rfl⟩, -⟩ := quotedArgument?_splits hargument
        exact nofun
    · exact .absent fun p _ => splitArgument_of_unopened (by rintro d ⟨⟩; exact hopen)

section Mentions

lemma mentionsPseudo_append_of_silent {p : List Char} (h : ':' ∉ p) (t : List Char) :
    mentionsPseudo (p ++ t) = mentionsPseudo t := by
  induction p with
  | nil => rfl
  | cons c p ih =>
    have hc : (c == ':') = false := by
      simpa using fun heq : c = ':' => h (heq ▸ List.mem_cons_self)
    rw [List.cons_append, mentionsPseudo, hc, Bool.false_and, Bool.false_or,
      ih fun hmem => h (List.mem_cons_of_mem c hmem)]

/-- Whether a unit of a name is read in front of a boundary does not depend on the boundary. -/
theorem isSome_identifierUnit?_append (hx : Settled x) {t t' : List Char} (ht : Boundary t)
    (ht' : Boundary t') :
    (identifierUnit? (x ++ t)).isSome = (identifierUnit? (x ++ t')).isSome := by
  cases x with
  | nil => rw [List.nil_append, List.nil_append, ht.identifierUnit?_eq_none,
      ht'.identifierUnit?_eq_none]
  | cons c x =>
    obtain hnone | ⟨unit, rest, -, -, -, hsome⟩ | hopen := identifierUnit?_append_tail hx
    · rw [hnone t ht, hnone t' ht']
    · rw [hsome t ht, hsome t' ht']
      rfl
    · rw [hopen t ht, hopen t' ht']
      rfl

lemma mentionsPseudo_append_congr {t t' : List Char} (ht : Boundary t) (ht' : Boundary t')
    (h : mentionsPseudo t = mentionsPseudo t') :
    ∀ (front : List Char) {x : List Char}, Settled (front ++ x) →
      mentionsPseudo (x ++ t) = mentionsPseudo (x ++ t')
  | _, [], _ => h
  | front, c :: x, hx => by
    have hmore : Settled ((front ++ [c]) ++ x) := by rwa [List.append_assoc, List.singleton_append]
    rw [List.cons_append, List.cons_append, mentionsPseudo, mentionsPseudo,
      mentionsPseudo_append_congr ht ht' h _ hmore]
    by_cases hc : c = ':'
    · subst hc
      rw [isSome_identifierUnit?_append (hx.of_append (by decide)) ht ht']
    · have hbeq : (c == ':') = false := by simpa using hc
      rw [hbeq, Bool.false_and, Bool.false_and]

/-- What stands in front of a patch mentions a pseudo-class, or what stands behind it does. -/
theorem mentionsPseudo_append_patch (hx : Settled x) {b rest p q : List Char}
    (hy : y = b ++ ')' :: rest) (hp : Patch broken y p) (hq : Patch broken y q) :
    mentionsPseudo (x ++ (p ++ b)) = mentionsPseudo (x ++ (q ++ b)) := by
  have hne : y ≠ [] := by simp [hy]
  have hboundary : ∀ {p}, Patch broken y p → Boundary (p ++ b) := by
    intro p hp c hc
    apply hp.tail.boundary
    have hhead : (p ++ b).head? = some c := hc
    rw [hy, ← List.append_assoc, List.head?_append, hhead]
    rfl
  refine mentionsPseudo_append_congr (hboundary hp) (hboundary hq) ?_ [] hx
  rw [mentionsPseudo_append_of_silent (hp.silent hne),
    mentionsPseudo_append_of_silent (hq.silent hne)]

end Mentions

end TreeQuery
