import TreeQuery.Proofs.Selector.Tails.Gaps
import TreeQuery.Proofs.Selector.Tails.SpacedScans

/-!
# Exchanging blanks

Which blank stands at a comma or at a combinator makes no difference to what is read: the clauses,
the names and the tests stay, and an argument changes in that one character. This holds also inside
an argument that is a selector itself.

A line feed is the exception, since a pseudo-class whose argument has nested parentheses takes the
text up to the last parenthesis of the line. Where such an argument stands in front of the blank, a
line feed can be exchanged with a line feed only, and any other blank with any other.
-/

namespace TreeQuery

open Written

variable {lines a : Bool} {b d : Char} {x y t text : List Char}

section Calls

/-- An argument without nested parentheses stands between parentheses. -/
theorem splitArgument_plain {plain : List Char} (h : (splitArgument text).1 = .plain plain) :
    text = '(' :: plain ++ ')' :: (splitArgument text).2 := by
  by_cases hopen : ∀ c ∈ text.head?, c ≠ '('
  · rw [splitArgument_of_unopened hopen] at h
    cases h
  · cases text with
    | nil => exact absurd nofun hopen
    | cons c text =>
      obtain rfl : c = '(' := by
        by_contra hc
        exact hopen (by rintro d ⟨⟩; exact hc)
      rw [splitArgument] at h ⊢
      cases hquoted : quotedArgument? text with
      | some found =>
        obtain ⟨⟨body, hbody⟩, -⟩ := quotedArgument?_splits hquoted
        rw [hquoted] at h
        cases hbody.symm.trans h
      | none =>
        rw [hquoted] at h
        cases hplain : plainArgument? text with
        | some found =>
          obtain ⟨plain', hargument, htext⟩ := plainArgument?_splits hplain
          rw [hplain] at h
          obtain rfl : plain' = plain := Argument.plain.inj (hargument.symm.trans h)
          exact congrArg ('(' :: ·) htext
        | none =>
          rw [hplain] at h
          cases hline : lineArgument? text with
          | none =>
            rw [hline] at h
            cases h
          | some found =>
            obtain ⟨inner, hargument, -⟩ := lineArgument?_splits hline
            rw [hline] at h
            cases hargument.symm.trans h

/-- A pseudo-class whose argument is not in quotes takes the text up to the parenthesis. -/
theorem callLexeme_text {after : List Char} (spelled : List Char)
    (h : (splitArgument after).1.IsText) :
    ∃ w y, after = '(' :: (w ++ ')' :: y) ∧
      (callLexeme spelled (splitArgument after)).item? = some (some (.pseudo
        ⟨(String.ofList (unescape spelled)).toLower, some (String.ofList w), false⟩), y) := by
  have hplain : ∀ plain, (splitArgument after).1 = .plain plain →
      after = '(' :: plain ++ ')' :: (splitArgument after).2 := fun _ => splitArgument_plain
  have hline := (splitArgument_splits after).2
  generalize splitArgument after = split at h hplain hline ⊢
  obtain ⟨argument, rest⟩ := split
  cases argument with
  | absent => cases h
  | quoted body => cases h
  | plain plain => exact ⟨plain, rest, hplain plain rfl, rfl⟩
  | line inner =>
    have hcut := hline inner rfl
    rw [callLexeme]
    split
    · rw [List.cons_append, splitUnread_front inner rest (scan false inner).rest.length] at hcut
      exact ⟨_, _, hcut, rfl⟩
    · exact ⟨inner, rest, hcut, rfl⟩

lemma callLexeme_argument {spelled w y : List Char} {item : Option TokenValue}
    (h : (callLexeme spelled (splitArgument ('(' :: (w ++ ')' :: y)))).item? = some (item, y))
    (hargument : (splitArgument ('(' :: (w ++ ')' :: y))).1.IsText) :
    item = some (.pseudo
      ⟨(String.ofList (unescape spelled)).toLower, some (String.ofList w), false⟩) := by
  obtain ⟨w', y', htext, hitem⟩ := callLexeme_text spelled hargument
  obtain ⟨rfl, rfl⟩ := Prod.mk.inj (Option.some.inj (hitem.symm.trans h))
  rw [List.append_cancel_right (List.cons.inj htext).2]

/-- The argument of a pseudo-class that is not in quotes stands behind its name. -/
theorem callLexeme_unquoted {spelled after y : List Char} {name argument : String}
    (h : (callLexeme spelled (splitArgument after)).item? =
      some (some (.pseudo ⟨name, some argument, false⟩), y)) :
    name = (String.ofList (unescape spelled)).toLower ∧
      after = '(' :: (argument.toList ++ ')' :: y) ∧ (splitArgument after).1.IsText := by
  have hargument : (splitArgument after).1.IsText := by
    generalize splitArgument after = split at h ⊢
    obtain ⟨argument', rest⟩ := split
    cases argument' with
    | absent => cases h
    | quoted body => cases h
    | plain plain => trivial
    | line inner => trivial
  obtain ⟨w, y', htext, hitem⟩ := callLexeme_text spelled hargument
  cases hitem.symm.trans h
  exact ⟨rfl, by rw [String.toList_ofList]; exact htext, hargument⟩

/-- Such a pseudo-class is read by its name where no structural position is. -/
theorem exists_call {a : Bool} {head w y : List Char} {name : String}
    (h : (Lexeme.next a (head ++ (w ++ ')' :: y))).item? =
      some (some (.pseudo ⟨name, some (String.ofList w), false⟩), y)) :
    ∃ spelled, head = ':' :: (spelled ++ ['(']) ∧
      structural? (':' :: (spelled ++ '(' :: (w ++ ')' :: y))) = none ∧
      identifier? (spelled ++ '(' :: (w ++ ')' :: y)) = some (spelled, '(' :: (w ++ ')' :: y)) ∧
      (callLexeme spelled (splitArgument ('(' :: (w ++ ')' :: y)))).item? =
        some (some (.pseudo ⟨name, some (String.ofList w), false⟩), y) := by
  obtain ⟨-, hstart, htest⟩ := next_test h nofun
  rw [htest] at h
  generalize htext : head ++ (w ++ ')' :: y) = text at h hstart htest
  cases hstart with
  | @pseudo _ text =>
    rw [simpleTest_colon_eq] at h
    cases hfound : structural? (':' :: text) with
    | some found =>
      obtain ⟨found, rest⟩ := found
      rw [hfound] at h
      cases found <;> cases h
    | none =>
      rw [hfound] at h
      dsimp only at h
      rw [pseudo?_eq] at h
      cases hname : identifier? text with
      | none =>
        rw [hname] at h
        cases h
      | some found =>
        obtain ⟨spelled, after⟩ := found
        rw [hname, Option.map_some, Option.getD_some] at h
        obtain ⟨-, hafter, -⟩ := callLexeme_unquoted h
        rw [String.toList_ofList] at hafter
        subst hafter
        obtain ⟨rfl, -⟩ := identifier?_append hname
        refine ⟨spelled, ?_, hfound, hname, h⟩
        have hhead : head ++ (w ++ ')' :: y) = ':' :: (spelled ++ ['(']) ++ (w ++ ')' :: y) :=
          htext.trans (by simp)
        exact List.append_cancel_right hhead

lemma settled_of_call {a : Bool} {head w y : List Char} {name : String}
    (h : (Lexeme.next a (head ++ (w ++ ')' :: y))).item? =
      some (some (.pseudo ⟨name, some (String.ofList w), false⟩), y)) : Settled head := by
  obtain ⟨spelled, rfl, -, hname, -⟩ := exists_call h
  exact .ordinary (by decide)
    ((identifier?_inert hname).settled.append (.of_not_mem (by decide)))

section Respaced

variable {w w' y : List Char}

lemma spaced_argument (hspaced : spaced lines w' = spaced lines w) (y : List Char) :
    spaced lines ('(' :: (w' ++ ')' :: y)) = spaced lines ('(' :: (w ++ ')' :: y)) := by
  have hclose : spacedChar lines ')' = ')' := spacedChar_of_not_blank (by decide)
  rw [spaced_cons (by decide), spaced_cons (by decide), spaced_append_cons (by decide) hclose,
    spaced_append_cons (by decide) hclose, hspaced]

lemma length_of_spaced (hspaced : spaced lines w' = spaced lines w) : w'.length = w.length := by
  rw [← length_spaced w', hspaced, length_spaced]

/-- An argument of which only blanks differ that break no line is taken as well. -/
theorem callLexeme_respaced {spelled : List Char} {name : String}
    (hspaced : spaced false w' = spaced false w)
    (h : (callLexeme spelled (splitArgument ('(' :: (w ++ ')' :: y)))).item? =
      some (some (.pseudo ⟨name, some (String.ofList w), false⟩), y)) :
    (callLexeme spelled (splitArgument ('(' :: (w' ++ ')' :: y)))).item? =
      some (some (.pseudo ⟨name, some (String.ofList w'), false⟩), y) := by
  obtain ⟨rfl, -, hargument⟩ := callLexeme_unquoted h
  have hsame := spaced_argument hspaced y
  have hread : ∀ w : List Char, Twin false SameItem
      (callLexeme spelled (splitArgument ('(' :: (w ++ ')' :: y)))).item?
      (callLexeme spelled (splitArgument (spaced false ('(' :: (w ++ ')' :: y))))).item? := fun w =>
    splitCall_spaced (fun inner _ => scan_spaced false inner) spelled spelled
  have hread' := hread w'
  rw [hsame] at hread'
  obtain ⟨-, item, rest, hitem, hlength, -, -⟩ := (hread w).meet hread' h
  -- As much is left behind the argument, so it is the same text.
  obtain rfl : rest = y := by
    have hsuffix : rest <:+ '(' :: (w' ++ ')' :: y) := by
      obtain rfl | ⟨front, hfront⟩ := callLexeme_front hitem
      · exact List.suffix_refl _
      · exact ⟨front ++ [')'], by simp [hfront]⟩
    have hsuffix' : y <:+ '(' :: (w' ++ ')' :: y) := ⟨'(' :: w' ++ [')'], by simp⟩
    exact (List.suffix_of_suffix_length_le hsuffix hsuffix' hlength.le).eq_of_length hlength
  have hkind := (splitArgument_spaced ('(' :: (w ++ ')' :: rest))).1.isText_iff
  have hkind' := (splitArgument_spaced ('(' :: (w' ++ ')' :: rest))).1.isText_iff
  rw [hsame] at hkind'
  rw [hitem, callLexeme_argument hitem (hkind'.mpr (hkind.mp hargument))]

/-- An argument without nested parentheses is taken as well if any blanks of it differ. -/
theorem callLexeme_unnested {spelled : List Char} {name : String}
    (hspaced : spaced true w' = spaced true w) (hplain : (splitPlain w).2 = [])
    (h : (callLexeme spelled (splitArgument ('(' :: (w ++ ')' :: y)))).item? =
      some (some (.pseudo ⟨name, some (String.ofList w), false⟩), y)) :
    (callLexeme spelled (splitArgument ('(' :: (w' ++ ')' :: y)))).item? =
      some (some (.pseudo ⟨name, some (String.ofList w'), false⟩), y) := by
  obtain ⟨rfl, -, hargument⟩ := callLexeme_unquoted h
  have hsame : spaced true (w' ++ ')' :: y) = spaced true (w ++ ')' :: y) := by
    rw [spaced_append_cons (by decide) (by decide), spaced_append_cons (by decide) (by decide),
      hspaced]
  have hopen : ∀ text, splitArgument ('(' :: text) =
      (((quotedArgument? text).or (plainArgument? text)).or (lineArgument? text)).getD
        (.absent, '(' :: text) := fun _ => rfl
  have hread : plainArgument? (w ++ ')' :: y) = some (.plain w, y) := by
    rw [plainArgument?, passes_of_splitPlain hplain, splitPlain_parenthesis (.inr rfl),
      List.append_nil]
    rfl
  have hquoted : quotedArgument? (w ++ ')' :: y) = none := by
    cases hfound : quotedArgument? (w ++ ')' :: y) with
    | none => rfl
    | some found =>
      obtain ⟨⟨body, hbody⟩, -⟩ := quotedArgument?_splits hfound
      rw [hopen, hfound] at hargument
      have hread : found.1.IsText := hargument
      rw [hbody] at hread
      cases hread
  have hquoted' : quotedArgument? (w' ++ ')' :: y) = none := by
    have htwin := quotedArgument?_spaced true (w' ++ ')' :: y)
    rw [hsame] at htwin
    exact (quotedArgument?_spaced true _).meet_none htwin hquoted
  have hread' : plainArgument? (w' ++ ')' :: y) = some (.plain w', y) := by
    have htwin := plainArgument?_spaced true (w' ++ ')' :: y)
    rw [hsame] at htwin
    obtain ⟨-, argument, rest, hfound, hlength, -, -⟩ :=
      (plainArgument?_spaced true _).meet htwin hread
    obtain ⟨plain, rfl, htext⟩ := plainArgument?_splits hfound
    obtain ⟨rfl, hrest⟩ := List.append_inj' htext (by simp [hlength])
    rw [hfound, (List.cons.inj hrest).2]
  rw [hopen, hquoted', hread']
  rfl

/-- A pseudo-class is read with another argument if only blanks of it differ, and none that breaks a
line unless the argument has no nested parentheses. -/
theorem call_respaced {a : Bool} {head : List Char} {name : String}
    (hspaced : spaced lines w' = spaced lines w) (hlines : lines = true → (splitPlain w).2 = [])
    (h : (Lexeme.next a (head ++ (w ++ ')' :: y))).item? =
      some (some (.pseudo ⟨name, some (String.ofList w), false⟩), y)) :
    (Lexeme.next a (head ++ (w' ++ ')' :: y))).item? =
      some (some (.pseudo ⟨name, some (String.ofList w'), false⟩), y) := by
  obtain ⟨spelled, rfl, hplace, hname, hcall⟩ := exists_call h
  have hsame : spaced lines (spelled ++ '(' :: (w' ++ ')' :: y)) =
      spaced lines (spelled ++ '(' :: (w ++ ')' :: y)) := by
    have hsettled := (identifier?_inert hname).settled
    rw [spaced_append hsettled, spaced_append hsettled, spaced_argument hspaced]
  have hplace' : structural? (':' :: (spelled ++ '(' :: (w' ++ ')' :: y))) = none := by
    have htwin := structural?_spaced lines (spelled ++ '(' :: (w' ++ ')' :: y))
    rw [hsame] at htwin
    exact (structural?_spaced lines _).meet_none htwin hplace
  have hname' : identifier? (spelled ++ '(' :: (w' ++ ')' :: y)) =
      some (spelled, '(' :: (w' ++ ')' :: y)) := by
    have htwin := identifier?_spaced lines (spelled ++ '(' :: (w' ++ ')' :: y))
    rw [hsame] at htwin
    obtain ⟨-, name, rest, hfound, hlength, -, -⟩ := (identifier?_spaced lines _).meet htwin hname
    obtain ⟨rfl, rfl⟩ := List.append_inj' (identifier?_append hfound).1
      (by simp [hlength, length_of_spaced hspaced])
    exact hfound
  have htext : ':' :: (spelled ++ ['(']) ++ (w' ++ ')' :: y) =
      ':' :: (spelled ++ '(' :: (w' ++ ')' :: y)) := by simp
  rw [htext, next_eq_simpleTest (by decide) (by decide), simpleTest_colon_eq, hplace']
  dsimp only
  rw [pseudo?_eq, hname']
  cases lines with
  | false => exact callLexeme_respaced hspaced hcall
  | true => exact callLexeme_unnested hspaced (hlines rfl) hcall

end Respaced

end Calls

section Exchanges

lemma spaced_exchange {u : List Char} (hu : Settled u) (hb : isBlank b = true)
    (hd : isBlank d = true) (hlines : lines = true ∨ (b = '\n' ↔ d = '\n')) (v : List Char) :
    spaced lines (u ++ d :: v) = spaced lines (u ++ b :: v) := by
  have hchar : spacedChar lines d = spacedChar lines b := by
    by_cases hbreak : b = '\n' ∧ d = '\n'
    · rw [hbreak.1, hbreak.2]
    · rw [spacedChar_of_blank hb (hlines.imp_right fun h heq => hbreak ⟨heq, h.mp heq⟩),
        spacedChar_of_blank hd (hlines.imp_right fun h heq => hbreak ⟨h.mpr heq, heq⟩)]
  rw [spaced_append hu, spaced_append hu, spaced_blank hb, spaced_blank hd, hchar]

/-- Nothing is trimmed from a text with another blank in its middle. -/
theorem trimBlanks_exchange {p q : List Char} (hp : Settled p) (hb : isBlank b = true)
    (hd : isBlank d = true) (hq : q ≠ []) (h : trimBlanks (p ++ b :: q) = p ++ b :: q) :
    trimBlanks (p ++ d :: q) = p ++ d :: q := by
  obtain ⟨hhead, hlast⟩ := trimBlanks_eq_self_iff.mp h
  refine trimBlanks_eq_self_iff.mpr ⟨?_, ?_⟩
  · cases p with
    | nil => cases (hhead b rfl).symm.trans hb
    | cons c p => exact hhead
  · intro z e hz he hsettled
    obtain hnil | ⟨q', e', rfl⟩ := List.eq_nil_or_concat q
    · exact hq hnil
    · rw [List.concat_eq_append, ← List.cons_append, ← List.append_assoc] at hz hlast
      obtain ⟨rfl, heq⟩ := List.append_inj' hz rfl
      obtain rfl := (List.cons.inj heq).1
      have hmore := (hp.of_append_left hsettled).of_cons (by rintro rfl; cases hd)
      exact hlast _ _ rfl he (hp.append (.ordinary (by rintro rfl; cases hb) hmore))

end Exchanges

section Runs

variable {R : Token → Token → Prop} {items : List (Option Token)} {s s' : Scan}

lemma Scan.after_clauses (hR : ∀ t, R t t)
    (h : List.Forall₂ (List.Forall₂ R) s.clauses s'.clauses) (items : List (Option Token)) :
    List.Forall₂ (List.Forall₂ R) (s.after items).clauses (s'.after items).clauses := by
  induction items with
  | nil => exact h
  | cons item items ih =>
    cases item with
    | none => exact .cons .nil ih
    | some t =>
      cases ih with
      | cons hfirst hlater => exact .cons (.cons (hR t) hfirst) hlater

lemma Scan.after_rest (items : List (Option Token)) (s : Scan) :
    (s.after items).rest = s.rest ∧ (s.after items).fault = s.fault := by
  induction items with
  | nil => exact ⟨rfl, rfl⟩
  | cons item items ih => cases item <;> exact ih

/-- The last token that is taken ends a clause. -/
theorem Scan.exists_last (items : List (Option Token)) (t : Token) :
    ∃ clause ∈ ((Scan.whole [t]).after items).clauses, clause.getLast? = some t := by
  induction items with
  | nil => exact ⟨[t], List.mem_cons_self, rfl⟩
  | cons item items ih =>
    obtain ⟨clause, hclause, hlast⟩ := ih
    cases item with
    | none => exact ⟨clause, List.mem_cons_of_mem _ hclause, hlast⟩
    | some u =>
      obtain rfl | hlater := List.mem_cons.mp hclause
      · refine ⟨_, List.mem_cons_self, ?_⟩
        change (u :: ((Scan.whole [t]).after items).first).getLast? = some t
        rw [List.getLast?_cons, hlast]
        rfl
      · exact ⟨clause, List.mem_cons_of_mem _ hlater, hlast⟩

lemma Clause.check_of_forall₂ {clauses clauses' : List Clause}
    (hR : ∀ t u, R t u → u.isCombinator = t.isCombinator)
    (h : List.Forall₂ (List.Forall₂ R) clauses clauses')
    (hcheck : ∀ clause ∈ clauses, clause.check = .ok ()) :
    ∀ clause ∈ clauses', clause.check = .ok () := by
  have hflags : ∀ {ts us : Clause}, List.Forall₂ R ts us →
      us.map Token.isCombinator = ts.map Token.isCombinator := by
    intro ts us h
    induction h with
    | nil => rfl
    | cons htoken _ ih => rw [List.map_cons, List.map_cons, hR _ _ htoken, ih]
  induction h with
  | nil => exact nofun
  | cons hclause _ ih =>
    obtain ⟨hfirst, hlater⟩ := List.forall_mem_cons.mp hcheck
    exact List.forall_mem_cons.mpr ⟨Clause.check_of_flags (hflags hclause) hfirst, ih hlater⟩

/-- A scan that took a comma last goes on in front of no blank. -/
theorem Crosses.head_of_flag {x : List Char} (h : Crosses a x t items false) :
    x = [] ∨ dropBlanks t = t := by
  generalize hflag : false = b at h
  induction h with
  | done => exact .inl rfl
  | item hitem hrest ih =>
    obtain rfl | hdrop := ih hflag
    · obtain ⟨-, hsome⟩ := hrest.eq_of_nil
      rename_i item _
      cases item with
      | some value => cases hflag.trans hsome
      | none => exact .inr (Lexeme.next_separator hitem).2.2
    · exact .inr hdrop

end Runs

section Places

/-- Whether `source` is read from a text that has the blanks `lead` and `trail` around it. -/
structure ReadsFrom (lead source trail : List Char) : Prop where
  blank_lead : dropBlanks lead = []
  blank_trail : dropBlanks trail = []
  accepted : ∃ clauses, SelectorList.parse (String.ofList (lead ++ (source ++ trail))) =
    .ok ⟨String.ofList source, clauses⟩

/-- Whether the blank `b` between `u` and `v` belongs to a comma or to a combinator of a text that
is accepted, or of the argument of a pseudo-class there that is accepted itself. What is read in
front of the blank, and around it, is `items`. -/
inductive InGap : List Char → Char → List Char → List (Option Token) → Prop
  | here {lead x k k' y trail : List Char} {b : Char} {items : List (Option Token)}
      {item : Option TokenValue} {a : Bool} :
    ReadsFrom lead (x ++ (k ++ b :: k' ++ y)) trail → TakesGap x (k ++ b :: k') y items item a →
      isBlank b = true → InGap (lead ++ (x ++ k)) b (k' ++ (y ++ trail)) items
  | inside {lead x head u v y trail : List Char} {b : Char} {items inner : List (Option Token)}
      {name : String} {a : Bool} :
    ReadsFrom lead (x ++ (head ++ (u ++ b :: v ++ ')' :: y))) trail →
      Crosses false x (head ++ (u ++ b :: v ++ ')' :: y)) items a →
        (Lexeme.next a (head ++ (u ++ b :: v ++ ')' :: y))).item? =
          some (some (.pseudo ⟨name, some (String.ofList (u ++ b :: v)), false⟩), y) →
        InGap u b v inner →
          InGap (lead ++ (x ++ (head ++ u))) b (v ++ ')' :: (y ++ trail))
            (items ++ [some ⟨String.ofList (head ++ (u ++ b :: v ++ [')'])),
              .pseudo ⟨name, some (String.ofList (u ++ b :: v)), false⟩⟩])

variable {lead source source' trail x u v : List Char} {items : List (Option Token)}
  {item : Option TokenValue}

namespace ReadsFrom

variable (h : ReadsFrom lead source trail)
include h

lemma scanned : source ≠ [] ∧ trimBlanks source = source ∧ (scan false source).fault = none ∧
    (scan false source).rest = [] ∧
      ∀ clause ∈ (scan false source).clauses, clause.check = .ok () := by
  obtain ⟨clauses, hparse⟩ := h.accepted
  obtain ⟨hne, hfault, hrest, hcheck, hlist⟩ := SelectorList.parse_eq_ok_iff.mp hparse
  obtain ⟨hsource, rfl⟩ := SelectorList.mk.inj hlist
  rw [String.ofList_inj] at hsource
  rw [← hsource] at hne hfault hrest hcheck
  exact ⟨hne, hsource ▸ trimBlanks_trimBlanks _, hfault, hrest, hcheck⟩

lemma parse_eq : SelectorList.parse (String.ofList (lead ++ (source ++ trail))) =
    .ok ⟨String.ofList source, (scan false source).clauses⟩ := by
  obtain ⟨clauses, hparse⟩ := h.accepted
  obtain ⟨-, -, -, -, hlist⟩ := SelectorList.parse_eq_ok_iff.mp hparse
  obtain ⟨hsource, hclauses⟩ := SelectorList.mk.inj hlist
  rw [String.ofList_inj] at hsource
  rw [hparse, hclauses, ← hsource]

/-- Another text of which the scan takes related tokens is accepted as well. -/
theorem exchange {R : Token → Token → Prop} (hR : ∀ t u, R t u → u.isCombinator = t.isCombinator)
    (hne : source' ≠ []) (htrim : trimBlanks source' = source')
    (hfault : (scan false source').fault = (scan false source).fault)
    (hrest : (scan false source').rest = (scan false source).rest)
    (hclauses : List.Forall₂ (List.Forall₂ R) (scan false source).clauses
      (scan false source').clauses) :
    SelectorList.parse (String.ofList (lead ++ (source' ++ trail))) =
      .ok ⟨String.ofList source', (scan false source').clauses⟩ := by
  obtain ⟨-, -, hfault₀, hrest₀, hcheck⟩ := h.scanned
  have hsettled := settled_of_scan (hrest.trans hrest₀)
  have htrimmed := trimBlanks_margins h.blank_lead h.blank_trail hne hsettled htrim
  rw [List.append_assoc] at htrimmed
  refine SelectorList.parse_eq_ok_iff.mpr ?_
  rw [String.toList_ofList, htrimmed]
  exact ⟨hne, hfault.trans hfault₀, hrest.trans hrest₀,
    Clause.check_of_forall₂ hR hclauses hcheck, rfl⟩

/-- More text stands behind a comma or a combinator, and it is read to its end. -/
theorem behind_gap {gap : List Char} (hsource : source = x ++ (gap ++ y))
    (hgap : TakesGap x gap y items item a) : y ≠ [] ∧ (scan item.isSome y).rest = [] := by
  obtain ⟨-, -, -, hrest, hcheck⟩ := h.scanned
  have hscan := (hgap.crosses.trans (.single hgap.taken)).scan
  rw [List.append_assoc, ← hsource] at hscan
  rw [hscan, (Scan.after_rest _ _).1] at hrest
  refine ⟨?_, hrest⟩
  rintro rfl
  cases item with
  | none => exact (Lexeme.next_separator hgap.taken).2.1 rfl
  | some value =>
    obtain ⟨k, rfl⟩ := hgap.joint value rfl
    rw [Scan.after_append, Option.isSome_some, scan_nil] at hscan
    obtain ⟨clause, hclause, hlast⟩ := Scan.exists_last items
      ⟨String.ofList gap, .combinator k⟩
    have hwell := Clause.wellFormed_of_check (hcheck clause (by rw [hscan]; exact hclause))
    cases hwell.last _ hlast

/-- Another text may be taken for one item, if the items in front of it stay what they are. -/
theorem exchange_item {R : Token → Token → Prop} {raw raw' : List Char} {item' : Option TokenValue}
    (hR : ∀ t u, R t u → u.isCombinator = t.isCombinator) (hrefl : ∀ t, R t t)
    (hsource : source = x ++ (raw ++ y)) (hx : Crosses false x (raw ++ y) items a)
    (hitem : (Lexeme.next a (raw ++ y)).item? = some (item, y))
    (hx' : Crosses false x (raw' ++ y) items a)
    (hitem' : (Lexeme.next a (raw' ++ y)).item? = some (item', y))
    (hsome : item'.isSome = item.isSome)
    (htoken : ∀ value value', item = some value → item' = some value' →
      R ⟨String.ofList raw, value⟩ ⟨String.ofList raw', value'⟩)
    (htrim : trimBlanks (x ++ (raw' ++ y)) = x ++ (raw' ++ y)) :
    ∃ list, SelectorList.parse (String.ofList (lead ++ (x ++ (raw' ++ y) ++ trail))) = .ok list ∧
      List.Forall₂ (List.Forall₂ R) (scan false source).clauses list.clauses := by
  have hscan := (hx.trans (.single hitem)).scan
  have hscan' := (hx'.trans (.single hitem')).scan
  rw [List.append_assoc, Scan.after_append] at hscan hscan'
  rw [← hsource] at hscan
  have hclauses : List.Forall₂ (List.Forall₂ R) (scan false source).clauses
      (scan false (x ++ (raw' ++ y))).clauses := by
    have hself : ∀ s : Scan, List.Forall₂ (List.Forall₂ R) s.clauses s.clauses := fun s =>
      List.forall₂_same.mpr fun clause _ => List.forall₂_same.mpr fun t _ => hrefl t
    rw [hscan, hscan']
    refine Scan.after_clauses hrefl ?_ items
    cases item with
    | none =>
      cases item' with
      | none => exact .cons .nil (hself _)
      | some value' => cases hsome
    | some value =>
      cases item' with
      | none => cases hsome
      | some value' =>
        cases hself (scan true y) with
        | cons hfirst hlater => exact .cons (.cons (htoken _ _ rfl rfl) hfirst) hlater
  have hne : x ++ (raw' ++ y) ≠ [] := by
    obtain ⟨taken, htext, htaken, -⟩ := Lexeme.next_raw hitem'
    obtain rfl := List.append_cancel_right htext
    simp [htaken]
  refine ⟨_, h.exchange hR hne htrim ?_ ?_ hclauses, hclauses⟩
  · rw [hscan, hscan', (Scan.after_rest _ _).2, (Scan.after_rest _ _).2, (Scan.after_rest _ _).2,
      (Scan.after_rest _ _).2, hsome]
  · rw [hscan, hscan', (Scan.after_rest _ _).1, (Scan.after_rest _ _).1, (Scan.after_rest _ _).1,
      (Scan.after_rest _ _).1, hsome]

end ReadsFrom

lemma exists_readsFrom {text : String} {list : SelectorList}
    (h : SelectorList.parse text = .ok list) :
    ∃ lead trail, text.toList = lead ++ (list.source.toList ++ trail) ∧
      ReadsFrom lead list.source.toList trail := by
  obtain ⟨-, -, -, -, hlist⟩ := SelectorList.parse_eq_ok_iff.mp h
  obtain ⟨trail, hdrop, htrail⟩ := trimBlanks_append text.toList
  have htext : text.toList = text.toList.takeWhile isBlank ++
      (list.source.toList ++ trail) := by
    rw [hlist, String.toList_ofList, ← hdrop]
    exact List.takeWhile_append_dropWhile.symm
  refine ⟨_, trail, htext, List.dropWhile_eq_nil_iff.mpr fun c hc => List.mem_takeWhile_imp hc,
    htrail, list.clauses, ?_⟩
  rw [← htext, String.ofList_toList, String.ofList_toList]
  exact h

namespace InGap

/-- Every blank that is taken with a comma or a combinator belongs to it. -/
theorem of_taken {text : String} {list : SelectorList} {k k' : List Char}
    (h : SelectorList.parse text = .ok list)
    (hsource : list.source.toList = x ++ (k ++ b :: k' ++ y))
    (hgap : TakesGap x (k ++ b :: k') y items item a) (hb : isBlank b = true) :
    ∃ u v, text.toList = u ++ b :: v ∧ InGap u b v items := by
  obtain ⟨lead, trail, htext, hreads⟩ := exists_readsFrom h
  rw [hsource] at htext hreads
  exact ⟨_, _, by rw [htext]; simp, .here hreads hgap hb⟩

/-- Every blank in the text of a combinator belongs to it. -/
theorem of_combinator {text : String} {list : SelectorList} {clause : Clause} {t : Token}
    {k k' : List Char} (h : SelectorList.parse text = .ok list) (hclause : clause ∈ list.clauses)
    (ht : t ∈ clause) (hcombinator : t.isCombinator = true) (hraw : t.raw.toList = k ++ b :: k')
    (hb : isBlank b = true) : ∃ u v items, text.toList = u ++ b :: v ∧ InGap u b v items := by
  obtain ⟨-, -, -, -, hlist⟩ := SelectorList.parse_eq_ok_iff.mp h
  have hclauses : list.clauses = (scan false list.source.toList).clauses := by
    rw [hlist, String.toList_ofList]
  obtain ⟨x, y, items, a, hsource, hcrosses, htaken⟩ :=
    Crosses.exists_of_mem false list.source.toList (hclauses ▸ hclause) ht
  rw [hraw] at hsource hcrosses htaken
  have hjoint : ∀ value, some t.value = some value → ∃ c, value = .combinator c := by
    rintro _ ⟨⟩
    obtain ⟨raw, value⟩ := t
    cases value with
    | combinator c => exact ⟨c, rfl⟩
    | _ => cases hcombinator
  obtain ⟨u, v, htext, hgap⟩ := of_taken h hsource ⟨hcrosses, htaken, hjoint⟩ hb
  exact ⟨u, v, items, htext, hgap⟩

lemma settled (h : InGap u b v items) : Settled u ∧ isBlank b = true := by
  have hblanks : ∀ {lead : List Char}, dropBlanks lead = [] → Settled lead := fun hlead =>
    (isGap_of_dropBlanks_nil hlead).inert.settled
  induction h with
  | here hreads hgap hb =>
    have hk : IsGap _ := fun c hc =>
      (isGap_of_taken hgap.joint hgap.taken).1 c (List.mem_append_left _ hc)
    exact ⟨(hblanks hreads.blank_lead).append (hgap.crosses.settled.append hk.inert.settled), hb⟩
  | inside hreads hcrosses hcall _ ih =>
    have hhead := settled_of_call hcall
    exact ⟨(hblanks hreads.blank_lead).append (hcrosses.settled.append (hhead.append ih.1)), ih.2⟩

/-- A text that is read to its end stands behind the blanks and signs after `b`. -/
theorem opens (h : InGap u b v items) :
    ∃ k y, v = k ++ y ∧ IsGap k ∧ ∀ t, Closes t → Opens (y ++ t) := by
  induction h with
  | @here lead x k k' y trail b items item a hreads hgap hb =>
    obtain ⟨hgap', -, hdrop⟩ := isGap_of_taken hgap.joint hgap.taken
    obtain ⟨hne, hrest⟩ := hreads.behind_gap rfl hgap
    refine ⟨k', y ++ trail, rfl, hgap'.of_suffix ⟨k ++ [b], by simp⟩, fun t ht => ?_⟩
    rw [List.append_assoc]
    refine opens_append_of_scan hne hdrop hrest ?_
    rwa [Closes, dropBlanks_append_of_nil hreads.blank_trail]
  | @inside lead x head u v y trail b items inner name a hreads hcrosses hcall _ ih =>
    obtain ⟨k, y', rfl, hk, hopens⟩ := ih
    refine ⟨k, y' ++ ')' :: (y ++ trail), by simp, hk, fun t ht => ?_⟩
    rw [List.append_assoc]
    exact hopens _ (.inr ⟨y ++ trail ++ t, rfl⟩)

end InGap

end Places

section Main

/-- Whether two tokens mean the same, up to one blank in the argument of a pseudo-class. -/
def Token.Respaced (b d : Char) (t t' : Token) : Prop :=
  t'.value = t.value ∨ ∃ name u v,
    t.value = .pseudo ⟨name, some (String.ofList (u ++ b :: v)), false⟩ ∧
      t'.value = .pseudo ⟨name, some (String.ofList (u ++ d :: v)), false⟩

lemma Token.Respaced.isCombinator_eq {t t' : Token} (h : t.Respaced b d t') :
    t'.isCombinator = t.isCombinator := by
  obtain ⟨raw, value⟩ := t
  obtain ⟨raw', value'⟩ := t'
  obtain rfl | ⟨name, u, v, rfl, rfl⟩ := h <;> rfl

variable {u v lead trail x : List Char} {items : List (Option Token)} {item : Option TokenValue}

lemma piece_of_blank {k : List Char} (hb : isBlank b = true) (hk : IsGap k) (hopens : Opens y) :
    Piece y (b :: k) := by
  refine IsGap.piece (fun c hc => ?_) (List.cons_ne_nil _ _) hopens
  obtain rfl | hc := List.mem_cons.mp hc
  · exact .inl hb
  · exact hk c hc

lemma mem_break_iff (h : b = '\n' ↔ d = '\n') (k : List Char) :
    '\n' ∈ d :: k ↔ '\n' ∈ b :: k := by
  rw [List.mem_cons, List.mem_cons, eq_comm, ← h, eq_comm]

/-- What stands in front of the blank of a gap is crossed also in front of another blank. -/
theorem crosses_gap {k k' : List Char}
    (hreads : ReadsFrom lead (x ++ (k ++ b :: k' ++ y)) trail)
    (hgap : TakesGap x (k ++ b :: k') y items item a)
    (hb : isBlank b = true) (hd : isBlank d = true)
    (hlines : (b = '\n' ↔ d = '\n') ∨ ∀ t, some t ∈ items → t.value.Unnested) :
    Crosses false x (k ++ d :: k' ++ y) items a := by
  obtain ⟨hk, -, hdrop⟩ := isGap_of_taken hgap.joint hgap.taken
  obtain ⟨hne, hrest⟩ := hreads.behind_gap rfl hgap
  have hopens : Opens y := by
    have hopens := opens_append_of_scan hne hdrop hrest (t := []) (.inl rfl)
    rwa [List.append_nil] at hopens
  have hfront : IsGap k := fun c hc => hk c (List.mem_append_left _ hc)
  have hback : IsGap k' := fun c hc =>
    hk c (List.mem_append_right _ (List.mem_cons_of_mem _ hc))
  have hopen : ∀ c ∈ k.head?, c ≠ '(' := by
    rintro c hc rfl
    exact (gap_char (hfront _ (List.mem_of_mem_head? hc))).2 (by decide)
  have halike : k = [] → a = true ∧ Alike (b :: k' ++ y) (d :: k' ++ y) := by
    rintro rfl
    refine ⟨?_, .inr (.inr ⟨b, rfl, hb⟩)⟩
    cases a with
    | true => rfl
    | false =>
      -- The text would begin with a blank, or go on with one behind a comma.
      obtain rfl | hself := hgap.crosses.head_of_flag
      · obtain ⟨-, htrim, -⟩ := hreads.scanned
        cases ((trimBlanks_eq_self_iff.mp htrim).1 b rfl).symm.trans hb
      · cases (isBlank_of_dropBlanks hself b rfl).symm.trans hb
  have hbreak : (y ≠ [] → ('\n' ∈ d :: k' ↔ '\n' ∈ b :: k')) ∨
      ∀ t, some t ∈ items → t.value.Unnested := hlines.imp_left fun h _ => mem_break_iff h k'
  have hcrosses := hgap.crosses
  rw [List.append_assoc] at hcrosses ⊢
  exact hcrosses.swap hfront.inert.settled (piece_of_blank hb hback hopens)
    (piece_of_blank hd hback hopens) (by simp) hopen halike hbreak

/-- What stands in front of a pseudo-class is crossed also with another blank in its argument. -/
theorem crosses_call {head : List Char} {name : String} {inner : List (Option Token)}
    (hcrosses : Crosses false x (head ++ (u ++ b :: v ++ ')' :: y)) items a)
    (hcall : (Lexeme.next a (head ++ (u ++ b :: v ++ ')' :: y))).item? =
      some (some (.pseudo ⟨name, some (String.ofList (u ++ b :: v)), false⟩), y))
    (hgap : InGap u b v inner) (hd : isBlank d = true)
    (hlines : (b = '\n' ↔ d = '\n') ∨ ∀ t, some t ∈ items → t.value.Unnested) :
    Crosses false x (head ++ (u ++ d :: v ++ ')' :: y)) items a := by
  obtain ⟨hu, hb⟩ := hgap.settled
  obtain ⟨k, rest, rfl, hk, hopens⟩ := hgap.opens
  have hhead := (settled_of_call hcall).append hu
  obtain ⟨spelled, rfl, -⟩ := exists_call hcall
  have hopens' : Opens (rest ++ ')' :: y) := hopens _ (.inr ⟨y, rfl⟩)
  have hbreak : (rest ++ ')' :: y ≠ [] → ('\n' ∈ d :: k ↔ '\n' ∈ b :: k)) ∨
      ∀ t, some t ∈ items → t.value.Unnested := hlines.imp_left fun h _ => mem_break_iff h k
  have htext : ∀ e : Char, ':' :: (spelled ++ ['(']) ++ (u ++ e :: (k ++ rest) ++ ')' :: y) =
      ':' :: (spelled ++ ['(']) ++ u ++ (e :: k ++ (rest ++ ')' :: y)) := fun e => by simp
  rw [htext] at hcrosses ⊢
  exact hcrosses.swap hhead (piece_of_blank hb hk hopens') (piece_of_blank hd hk hopens') (by simp)
    (by rintro c ⟨⟩; decide) (fun hnil => by cases hnil) hbreak

/-- A text is accepted with another blank at a comma or at a combinator, and read as the same. -/
theorem exchange_gap {k k' : List Char} (hreads : ReadsFrom lead (x ++ (k ++ b :: k' ++ y)) trail)
    (hgap : TakesGap x (k ++ b :: k') y items item a)
    (hb : isBlank b = true) (hd : isBlank d = true)
    (hlines : (b = '\n' ↔ d = '\n') ∨ ∀ t, some t ∈ items → t.value.Unnested) :
    ∃ list', SelectorList.parse (String.ofList (lead ++ (x ++ (k ++ d :: k' ++ y) ++ trail))) =
        .ok list' ∧
      List.Forall₂ (List.Forall₂ (Token.Respaced b d))
        (scan false (x ++ (k ++ b :: k' ++ y))).clauses list'.clauses := by
  obtain ⟨-, htrim, -⟩ := hreads.scanned
  obtain ⟨hne, -⟩ := hreads.behind_gap rfl hgap
  obtain ⟨hk, -, -⟩ := isGap_of_taken hgap.joint hgap.taken
  have hfront : IsGap k := fun c hc => hk c (List.mem_append_left _ hc)
  have hsettled : Settled (x ++ k) := hgap.crosses.settled.append hfront.inert.settled
  have hparts : ∀ e : Char, x ++ (k ++ e :: k' ++ y) = x ++ k ++ e :: (k' ++ y) := fun e => by simp
  have htrim' : trimBlanks (x ++ (k ++ d :: k' ++ y)) = x ++ (k ++ d :: k' ++ y) := by
    rw [hparts] at htrim ⊢
    exact trimBlanks_exchange hsettled hb hd (by simp [hne]) htrim
  have htaken : (Lexeme.next a (k ++ d :: k' ++ y)).item? = some (item, y) := by
    have htaken := hgap.taken
    rw [List.append_assoc] at htaken ⊢
    exact taken_respaced hgap.joint hb hd htaken
  exact hreads.exchange_item (fun _ _ h => h.isCombinator_eq) (fun _ => .inl rfl) rfl hgap.crosses
    hgap.taken (crosses_gap hreads hgap hb hd hlines) htaken rfl
    (fun _ _ h h' => .inl (Option.some.inj (h'.symm.trans h))) htrim'

/-- A text is accepted with another blank in an argument, of which only that blank changes. -/
theorem exchange_call {head : List Char} {name : String} {inner : List (Option Token)}
    (hreads : ReadsFrom lead (x ++ (head ++ (u ++ b :: v ++ ')' :: y))) trail)
    (hcrosses : Crosses false x (head ++ (u ++ b :: v ++ ')' :: y)) items a)
    (hcall : (Lexeme.next a (head ++ (u ++ b :: v ++ ')' :: y))).item? =
      some (some (.pseudo ⟨name, some (String.ofList (u ++ b :: v)), false⟩), y))
    (hgap : InGap u b v inner) (hd : isBlank d = true)
    (hlines : (b = '\n' ↔ d = '\n') ∨ ((∀ t, some t ∈ items → t.value.Unnested) ∧
      (splitPlain (u ++ b :: v)).2 = [])) :
    ∃ list', SelectorList.parse
        (String.ofList (lead ++ (x ++ (head ++ (u ++ d :: v ++ ')' :: y)) ++ trail))) = .ok list' ∧
      List.Forall₂ (List.Forall₂ (Token.Respaced b d))
        (scan false (x ++ (head ++ (u ++ b :: v ++ ')' :: y)))).clauses list'.clauses := by
  obtain ⟨hu, hb⟩ := hgap.settled
  obtain ⟨-, htrim, -⟩ := hreads.scanned
  have hsettled : Settled (x ++ (head ++ u)) :=
    hcrosses.settled.append ((settled_of_call hcall).append hu)
  have hparts : ∀ e : Char, x ++ (head ++ (u ++ e :: v ++ ')' :: y)) =
      x ++ (head ++ u) ++ e :: (v ++ ')' :: y) := fun e => by simp
  have htrim' : trimBlanks (x ++ (head ++ (u ++ d :: v ++ ')' :: y))) =
      x ++ (head ++ (u ++ d :: v ++ ')' :: y)) := by
    rw [hparts] at htrim ⊢
    exact trimBlanks_exchange hsettled hb hd (by simp) htrim
  have hcall' : (Lexeme.next a (head ++ (u ++ d :: v ++ ')' :: y))).item? =
      some (some (.pseudo ⟨name, some (String.ofList (u ++ d :: v)), false⟩), y) := by
    obtain hline | ⟨-, hplain⟩ := hlines
    · have hsame : spaced false (u ++ d :: v) = spaced false (u ++ b :: v) :=
        spaced_exchange hu hb hd (.inr hline) v
      exact call_respaced hsame (absurd · Bool.false_ne_true) hcall
    · exact call_respaced (spaced_exchange hu hb hd (.inl rfl) v) (fun _ => hplain) hcall
  have hcrosses' := crosses_call hcrosses hcall hgap hd (hlines.imp_right And.left)
  have hraw : ∀ e : Char, head ++ (u ++ e :: v ++ ')' :: y) =
      head ++ (u ++ e :: v ++ [')']) ++ y := fun e => by simp
  rw [hraw] at hcrosses hcall hcrosses' hcall' htrim' ⊢
  exact hreads.exchange_item (fun _ _ h => h.isCombinator_eq) (fun _ => .inl rfl) (by rw [hraw])
    hcrosses hcall hcrosses' hcall' rfl
    (by rintro _ _ ⟨⟩ ⟨⟩; exact .inr ⟨name, u, v, rfl, rfl⟩) htrim'

namespace SelectorList

variable {text : String} {list : SelectorList}

/-- A blank of a comma or of a combinator may be any other blank. One that breaks a line may be
exchanged with one that breaks none where no argument in front of it or around it has nested
parentheses. -/
theorem parse_respaced (h : parse text = .ok list) (htext : text.toList = u ++ b :: v)
    (hgap : InGap u b v items) (hd : isBlank d = true)
    (hlines : (b = '\n' ↔ d = '\n') ∨ ∀ t, some t ∈ items → t.value.Unnested) :
    ∃ list', parse (String.ofList (u ++ d :: v)) = .ok list' ∧
      List.Forall₂ (List.Forall₂ (Token.Respaced b d)) list.clauses list'.clauses := by
  obtain rfl : text = String.ofList (u ++ b :: v) := by
    rw [← htext, String.ofList_toList]
  cases hgap with
  | @here lead x k k' y trail _ _ item a hreads hgap hb =>
    obtain ⟨list', hparse, hrelated⟩ := exchange_gap hreads hgap hb hd hlines
    have hread := hreads.parse_eq
    have hparts : ∀ e : Char, lead ++ (x ++ (k ++ e :: k' ++ y) ++ trail) =
        lead ++ (x ++ k) ++ e :: (k' ++ (y ++ trail)) := fun e => by simp
    rw [hparts] at hparse hread
    obtain rfl := Except.ok.inj (h.symm.trans hread)
    exact ⟨list', hparse, hrelated⟩
  | @inside lead x head u v y trail _ items inner name a hreads hcrosses hcall hgap =>
    -- The pseudo-class around the blank is the last of the items.
    have hnested : (b = '\n' ↔ d = '\n') ∨ ((∀ t, some t ∈ items → t.value.Unnested) ∧
        (splitPlain (u ++ b :: v)).2 = []) := by
      refine hlines.imp_right fun h => ⟨fun t ht => h t (List.mem_append_left _ ht), ?_⟩
      have hwhole := h _ (List.mem_append_right _ List.mem_cons_self) _ rfl rfl _ rfl
      rwa [String.toList_ofList] at hwhole
    obtain ⟨list', hparse, hrelated⟩ := exchange_call hreads hcrosses hcall hgap hd hnested
    have hread := hreads.parse_eq
    have hparts : ∀ e : Char, lead ++ (x ++ (head ++ (u ++ e :: v ++ ')' :: y)) ++ trail) =
        lead ++ (x ++ (head ++ u)) ++ e :: (v ++ ')' :: (y ++ trail)) := fun e => by simp
    rw [hparts] at hparse hread
    obtain rfl := Except.ok.inj (h.symm.trans hread)
    exact ⟨list', hparse, hrelated⟩

-- The argument ends at the parenthesis in front of the line feed.
example : (parse ":not(:is(a) b)").isOk = true ∧ (parse ":not(:is(a)\nb)").isOk = false := by
  decide +kernel

def respacedList : SelectorList :=
  ⟨":not(:is(a) b)", [[⟨":not(:is(a) b)", .pseudo ⟨"not", some ":is(a) b", false⟩⟩]]⟩

theorem parse_respaced_sample :
    parse ":not(:is(a) b)" = .ok respacedList ∧
      ∃ list', parse ":not(:is(a)\tb)" = .ok list' ∧
        List.Forall₂ (List.Forall₂ (Token.Respaced ' ' '\t'))
          respacedList.clauses list'.clauses := by
  have hparse : parse ":not(:is(a) b)" = .ok respacedList := by decide +kernel
  have hinner : ReadsFrom [] (":is(a)".toList ++ ([] ++ [' '] ++ ['b'])) [] :=
    ⟨rfl, rfl, [[⟨":is(a)", .pseudo ⟨"is", some "a", false⟩⟩, ⟨" ", .combinator .descendant⟩,
      ⟨"b", .tag "b"⟩]], by decide +kernel⟩
  have hfront : (Lexeme.next false (":is(a)".toList ++ [' ', 'b'])).item? =
      some (some (.pseudo ⟨"is", some "a", false⟩), [' ', 'b']) := by decide +kernel
  have hblank : (Lexeme.next true [' ', 'b']).item? =
      some (some (.combinator .descendant), ['b']) := by decide +kernel
  have hplace : InGap ([] ++ (":is(a)".toList ++ [])) ' ' ([] ++ (['b'] ++ [])) _ :=
    .here hinner ⟨.single hfront, hblank, by rintro _ ⟨⟩; exact ⟨_, rfl⟩⟩ rfl
  have houter : ReadsFrom []
      ([] ++ (":not(".toList ++ (":is(a)".toList ++ ' ' :: ['b'] ++ [')']))) [] :=
    ⟨rfl, rfl, respacedList.clauses, by decide +kernel⟩
  have hcall : (Lexeme.next false
      (":not(".toList ++ (":is(a)".toList ++ ' ' :: ['b'] ++ [')']))).item? =
      some (some (.pseudo ⟨"not", some (String.ofList (":is(a)".toList ++ ' ' :: ['b'])), false⟩),
        []) := by decide +kernel
  obtain ⟨list', hparse', hrelated⟩ := parse_respaced hparse (d := '\t') (by decide +kernel)
    (.inside houter (.done false _) hcall hplace) rfl (.inl (by decide))
  refine ⟨hparse, list', ?_, hrelated⟩
  rw [← hparse']
  exact congrArg parse (by decide +kernel)

end SelectorList

end Main

end TreeQuery
