import TreeQuery.Proofs.Selector.Tails.Cuts

/-!
# The end of a text

A clause that ends with an escape of hexadecimal digits may have taken the blank behind the digits.
That blank is dropped from the end of a text, and the clause is read without it as before.
-/

namespace TreeQuery

open Written

variable {afterToken : Bool} {b c d : Char} {x text : List Char} {ts us : Clause}
  {item : Option TokenValue}

section Backslashes

/-- An even number of backslashes at the end of a text leaves none waiting. -/
theorem settled_of_even (h : (x.reverse.takeWhile (· == '\\')).length % 2 = 0) : Settled x := by
  have hslashes : ∀ n, Settled (List.replicate (2 * n) '\\') := by
    intro n
    induction n with
    | zero => exact .nil
    | succ n ih => exact .escape '\\' ih
  have happ : x.reverse.takeWhile (· == '\\') ++ x.reverse.dropWhile (· == '\\') = x.reverse :=
    List.takeWhile_append_dropWhile
  have hhead := List.head?_dropWhile_not (· == '\\') x.reverse
  have hall : ∀ c ∈ x.reverse.takeWhile (· == '\\'), c = '\\' := by
    intro c hc
    simpa using List.mem_takeWhile_imp (p := (· == '\\')) hc
  generalize x.reverse.takeWhile (· == '\\') = slashes at h happ hall
  generalize x.reverse.dropWhile (· == '\\') = front at happ hhead
  have hx : x = front.reverse ++ slashes.reverse := by
    rw [← List.reverse_append, happ, List.reverse_reverse]
  have hback : Settled slashes.reverse := by
    obtain ⟨n, hn⟩ := Nat.dvd_of_mod_eq_zero h
    rw [List.eq_replicate_of_mem hall, hn, List.reverse_replicate]
    exact hslashes n
  rw [hx]
  refine Settled.append ?_ hback
  cases front with
  | nil => exact .nil
  | cons c front =>
    rw [List.reverse_cons]
    exact Settled.concat (by simpa using hhead) _

/-- Whether the last character of a text is a blank that is dropped from its end. -/
theorem trimBlanks_concat (hfirst : dropBlanks (x ++ [b]) = x ++ [b]) :
    trimBlanks (x ++ [b]) = x ++ [b] ∨
      isBlank b = true ∧ Settled x ∧
        trimBlanks (x ++ [b]) = (dropLastBlanks x.reverse).reverse := by
  rw [trimBlanks, hfirst, List.reverse_append, List.reverse_singleton, List.singleton_append,
    dropLastBlanks]
  split
  · rename_i hblank
    simp only [Bool.and_eq_true, beq_iff_eq] at hblank
    exact .inr ⟨hblank.1, settled_of_even hblank.2, rfl⟩
  · left
    simp

lemma dropLastBlanks_reverse (h : ∀ z d, x = z ++ [d] → isBlank d = true → ¬Settled z) :
    (dropLastBlanks x.reverse).reverse = x := by
  obtain rfl | ⟨z, d, rfl⟩ := List.eq_nil_or_concat x
  · rfl
  · rw [List.concat_eq_append] at h ⊢
    rw [List.reverse_append, List.reverse_singleton, List.singleton_append, dropLastBlanks]
    split
    · rename_i hblank
      simp only [Bool.and_eq_true, beq_iff_eq] at hblank
      exact absurd (settled_of_even hblank.2) (h z d rfl hblank.1)
    · simp

end Backslashes

section Names

lemma boundary_blank (hb : isBlank b = true) (text : List Char) : Boundary (b :: text) := by
  obtain ⟨hname, hspecial⟩ := gap_char (.inl hb)
  exact boundary_cons _ hname (by rintro rfl; exact hspecial (by decide))

lemma splitIdentifier_nil : splitIdentifier [] = ([], []) :=
  splitIdentifier_stop rfl

/-- A name that takes the blank at its end is the same name without it. -/
theorem identifier?_trim (hx : Settled x) (hb : isBlank b = true)
    (h : identifier? (x ++ [b]) = some (x ++ [b], [])) : identifier? x = some (x, []) := by
  have ht := boundary_blank hb []
  obtain hnone | ⟨name, rest, -, -, -, hsome⟩ | ⟨-, hopen⟩ := identifier?_append_tail hx
  · exact nomatch (hnone _ ht).symm.trans h
  · have heq := (Prod.mk.inj (Option.some.inj ((hsome _ ht).symm.trans h))).2
    exact absurd (List.append_eq_nil_iff.mp heq).2 (List.cons_ne_nil _ _)
  · have heq := hopen [] boundary_nil
    rw [leadingBlank, afterBlank, splitIdentifier_nil] at heq
    simpa using heq

lemma identifier?_blanks (hx : Settled x) (hd : isBlank d = true) (hb : isBlank b = true)
    (name : List Char) : identifier? (x ++ [d, b]) ≠ some (name, []) := by
  intro h
  have ht := boundary_blank hd [b]
  obtain hnone | ⟨name', rest, -, -, -, hsome⟩ | ⟨-, hopen⟩ := identifier?_append_tail hx
  · cases (hnone _ ht).symm.trans h
  · have heq := (Prod.mk.inj (Option.some.inj ((hsome _ ht).symm.trans h))).2
    exact absurd (List.append_eq_nil_iff.mp heq).2 (List.cons_ne_nil _ _)
  · have heq := (Prod.mk.inj (Option.some.inj ((hopen _ ht).symm.trans h))).2
    rw [afterBlank, if_pos hd,
      splitIdentifier_stop (boundary_blank hb []).identifierUnit?_eq_none] at heq
    cases heq

lemma unescape_escape {e : Escape} (h : escape? text = some e) :
    unescape ('\\' :: text) = e.value :: unescape e.rest := by
  rw [unescape, if_pos rfl]
  split
  · rename_i heq
    obtain rfl := Option.some.inj (heq.symm.trans h)
    rfl
  · rename_i heq
    cases heq.symm.trans h

lemma unescape_plain (hc : c ≠ '\\') (text : List Char) :
    unescape (c :: text) = c :: unescape text := by
  rw [unescape, if_neg hc]

/-- The blank that ends an escape stands for nothing. -/
theorem unescape_trim {x : List Char} (hx : Settled x) (hb : isBlank b = true)
    (h : splitIdentifier (x ++ [b]) = (x ++ [b], [])) : unescape (x ++ [b]) = unescape x := by
  have ht := boundary_blank hb []
  have hmore : ∀ {unit rest : List Char}, x = unit ++ rest →
      identifierUnit? (x ++ [b]) = some (unit, rest ++ [b]) →
        splitIdentifier (rest ++ [b]) = (rest ++ [b], []) := by
    rintro unit rest rfl hunit
    rw [splitIdentifier_of_unit hunit, List.append_assoc] at h
    obtain ⟨hname, hrest⟩ := Prod.mk.inj h
    exact Prod.ext (List.append_cancel_left hname) hrest
  cases x with
  | nil =>
    rw [List.nil_append, splitIdentifier_stop ht.identifierUnit?_eq_none] at h
    cases h
  | cons c x =>
    have hunit : identifierUnit? (c :: x ++ [b]) ≠ none := by
      intro hnone
      rw [splitIdentifier_stop hnone] at h
      cases h
    by_cases hc : c = '\\'
    · subst hc
      rw [List.cons_append, identifierUnit?, if_pos rfl] at hunit
      obtain hnone | ⟨raw, value, rest, rfl, hrest, hsome⟩ | ⟨value, hopen⟩ :=
        escape?_append_tail hx
      · rw [hnone _ ht.isHexDigit_head] at hunit
        exact absurd rfl hunit
      -- the escape ends before the blank
      · have hescape := hsome [b] ht.isHexDigit_head
        have hplain := hsome [] (by simp)
        rw [List.append_nil, List.append_nil] at hplain
        have hread : identifierUnit? ('\\' :: (raw ++ rest) ++ [b]) =
            some ('\\' :: raw, rest ++ [b]) := by
          rw [List.cons_append, identifierUnit?, if_pos rfl, hescape]
          rfl
        rw [List.cons_append, unescape_escape hescape, unescape_escape hplain,
          unescape_trim hrest hb (hmore rfl hread)]
      -- the blank is what ends the escape
      · have hplain := hopen [] (by simp)
        rw [List.append_nil] at hplain
        have hafter : afterBlank [b] = [] := by rw [afterBlank, if_pos hb]
        rw [List.cons_append, unescape_escape (hopen [b] ht.isHexDigit_head),
          unescape_escape hplain, hafter]
        rfl
    · have hread : identifierUnit? (c :: x ++ [b]) = some ([c], x ++ [b]) := by
        rw [List.cons_append, identifierUnit?, if_neg hc] at hunit ⊢
        split at hunit
        · rename_i hplain
          exact if_pos hplain
        · exact absurd rfl hunit
      rw [List.cons_append, unescape_plain hc, unescape_plain hc,
        unescape_trim (hx.of_cons hc) hb (hmore rfl hread)]
termination_by x.length

end Names

section Tokens

lemma identifier?_whole {name : List Char} (h : identifier? text = some (name, [])) :
    name = text := by
  rw [(identifier?_append h).1, List.append_nil]

/-- What ends with a closing sign does not end with a blank. -/
theorem concat_blank_ne (hb : isBlank b = true) (hc : c ∈ [')', ']']) (text front : List Char) :
    text ++ [b] ≠ front ++ [c] := by
  intro heq
  obtain ⟨-, heq⟩ := List.append_inj' heq rfl
  obtain rfl := (List.cons.inj heq).1
  simp only [List.mem_cons, List.not_mem_nil, or_false] at hc
  obtain rfl | rfl := hc <;> exact absurd hb (by decide)

lemma simpleTest_blank (hb : isBlank b = true) : simpleTest [b] = .unknown := by
  have hc : b ∉ ['*', '#', '.', '[', ':'] := by
    intro hmem
    simp only [List.mem_cons, List.not_mem_nil, or_false] at hmem
    obtain rfl | rfl | rfl | rfl | rfl := hmem <;> exact absurd hb (by decide)
  rw [simpleTest_other hc, namedLexeme,
    identifier?_eq_none (boundary_blank hb []).identifierUnit?_eq_none]

lemma namedLexeme_trim (value : String → TokenValue) (hx : Settled x) (hb : isBlank b = true)
    (h : (namedLexeme value (x ++ [b])).item? = some (item, [])) :
    identifier? (x ++ [b]) = some (x ++ [b], []) ∧
      (namedLexeme value x).item? = some (item, []) := by
  obtain ⟨name, hread, rfl⟩ := namedLexeme_item? value h
  obtain rfl := identifier?_whole hread
  refine ⟨hread, ?_⟩
  rw [namedLexeme, identifier?_trim hx hb hread, unescape_trim hx hb (identifier?_eq_some hread)]
  rfl

/-- What starts with a colon and ends with a blank is a name behind the colon. -/
theorem identifier?_of_colon (hb : isBlank b = true)
    (h : (simpleTest (':' :: (x ++ [b]))).item? = some (item, [])) :
    identifier? (x ++ [b]) = some (x ++ [b], []) := by
  obtain ⟨front, hfront⟩ | ⟨found, hstructural⟩ | ⟨name, hread⟩ := simpleTest_colon h
  · exact absurd hfront (concat_blank_ne hb (by decide) x front)
  · obtain ⟨name, heq, -, hall⟩ := structuralName?_eq_some hstructural
    rw [List.append_nil] at heq
    obtain ⟨-, hword⟩ := hall b (heq ▸ List.mem_append_right _ List.mem_cons_self)
    have hstop := (gap_char (.inl hb)).1
    simp only [continuesIdentifier, Bool.or_eq_false_iff, beq_eq_false_iff_ne] at hstop
    rw [hstop.1.1, hstop.2] at hword
    cases hword
  · obtain rfl := identifier?_whole hread
    exact hread

lemma colon_trim (hx : Settled x) (hb : isBlank b = true)
    (h : (simpleTest (':' :: (x ++ [b]))).item? = some (item, [])) :
    (simpleTest (':' :: x)).item? = some (item, []) := by
  have hread := identifier?_of_colon hb h
  have hclosed : ClosedPosition x := by
    intro found after hname
    obtain ⟨name, hfound⟩ := identifier?_of_structuralName? hname [b]
    exact nomatch (Prod.mk.inj (Option.some.inj (hfound.symm.trans hread))).2
  have hstructural := structural?_append (boundary_blank hb []) hclosed
  rw [List.cons_append] at hstructural
  rw [simpleTest_colon_eq, hstructural, pseudo?_eq, hread] at h
  rw [simpleTest_colon_eq, pseudo?_eq, identifier?_trim hx hb hread]
  cases hfound : structural? (':' :: x) with
  | some found =>
    rw [hfound] at h
    obtain ⟨result, rest⟩ := found
    cases result with
    | error e => exact nomatch h
    | ok position =>
      have hrest := (Prod.mk.inj (Option.some.inj h)).2
      exact absurd (List.append_eq_nil_iff.mp hrest).2 (List.cons_ne_nil _ _)
  | none =>
    rw [hfound] at h
    rw [← h]
    change _ = (callLexeme (x ++ [b]) (.absent, [])).item?
    rw [callLexeme, unescape_trim hx hb (identifier?_eq_some hread)]
    rfl

/-- What a simple test without an end of its own has taken last, and how it is read without a
blank there. -/
theorem simpleTest_trim (hx : Settled x) (hb : isBlank b = true)
    (h : (simpleTest (x ++ [b])).item? = some (item, [])) :
    ∃ lead name, x = lead ++ name ∧ Settled lead ∧
      identifier? (name ++ [b]) = some (name ++ [b], []) ∧
        (simpleTest x).item? = some (item, []) := by
  cases x with
  | nil =>
    rw [List.nil_append, simpleTest_blank hb] at h
    cases h
  | cons c x =>
    by_cases hc : c ∈ ['*', '#', '.', '[', ':']
    · have hslash : c ≠ '\\' := by
        rintro rfl
        exact absurd hc (by decide)
      have hx' : Settled x := hx.of_cons hslash
      have hlead : Settled [c] := .ordinary hslash .nil
      simp only [List.mem_cons, List.not_mem_nil, or_false] at hc
      obtain rfl | rfl | rfl | rfl | rfl := hc
      · have hrest := (Prod.mk.inj (Option.some.inj h)).2
        exact absurd (List.append_eq_nil_iff.mp hrest).2 (List.cons_ne_nil _ _)
      · obtain ⟨hread, hitem⟩ := namedLexeme_trim .id hx' hb h
        exact ⟨['#'], x, rfl, hlead, hread, hitem⟩
      · obtain ⟨hread, hitem⟩ := namedLexeme_trim .className hx' hb h
        exact ⟨['.'], x, rfl, hlead, hread, hitem⟩
      · rw [List.cons_append, simpleTest_bracket_eq] at h
        split at h
        · rename_i hfound
          obtain ⟨-, rfl⟩ := Prod.mk.inj (Option.some.inj h)
          obtain ⟨front, hfront⟩ := attributeTest?_front hfound
          exact absurd hfront (concat_blank_ne hb (by decide) x front)
        · cases h
      · exact ⟨[':'], x, rfl, hlead, identifier?_of_colon hb h, colon_trim hx' hb h⟩
    · rw [List.cons_append, simpleTest_other hc, ← List.cons_append] at h
      obtain ⟨hread, hitem⟩ := namedLexeme_trim .tag hx hb h
      exact ⟨[], c :: x, rfl, .nil, hread, by rwa [simpleTest_other hc]⟩

end Tokens

section Scans

/-- A clause whose last token takes a blank at its end is read without the blank as before. -/
theorem scan_trim {u : Token} (h : scan false (us.chars ++ (x ++ [b])) = .whole (us ++ [u]))
    (hraw : u.raw.toList = x ++ [b]) (hu : u.isCombinator = false) (hb : isBlank b = true)
    (hx : Settled (us.chars ++ x)) :
    (∃ raw, scan false (us.chars ++ x) = .whole (us ++ [⟨raw, u.value⟩])) ∧
      (dropLastBlanks (us.chars ++ x).reverse).reverse = us.chars ++ x := by
  obtain ⟨-, hsettled, hscan⟩ := scan_whole_split h
  obtain ⟨hitem, htext, -⟩ := scan_whole_cons hscan
  have hx' : Settled x := hsettled.of_append_left hx
  rw [Clause.chars_nil, List.append_nil, hraw] at htext
  rw [htext] at hitem hscan
  obtain ⟨hsolid, -, hnext⟩ := next_test hitem (Token.value_ne_combinator hu)
  rw [hnext] at hitem
  obtain ⟨lead, name, rfl, hlead, hread, hitem'⟩ := simpleTest_trim hx' hb hitem
  have hname : name ≠ [] := by
    rintro rfl
    rw [List.nil_append,
      identifier?_eq_none (boundary_blank hb []).identifierUnit?_eq_none] at hread
    cases hread
  obtain ⟨c, more, hcons⟩ := List.exists_cons_of_ne_nil (l := lead ++ name) (by simp [hname])
  have hsolid' : isBlank c = false ∧ c ∉ [',', '>', '+', '~'] := by
    rw [hcons] at hsolid
    exact hsolid c rfl
  constructor
  · have hgap : IsGap [b] := fun d hd => .inl (List.mem_singleton.mp hd ▸ hb)
    have hp := hgap.patch (List.cons_ne_nil _ _) (z := []) (y := []) Continues.nil.opens .nil nofun
      fun hne => absurd rfl hne
    have hq : Patch ('\n' ∈ [b]) [] [] :=
      ⟨⟨.nil, Continues.nil.tail, nofun, fun hne => absurd rfl hne⟩, fun hne => absurd rfl hne⟩
    have hopen : ∀ d ∈ (lead ++ name).head?, d ≠ '(' := by
      rintro d hd rfl
      obtain ⟨rest, heq⟩ := List.head?_eq_some_iff.mp hd
      have hfirst := scan_open (false || !us.isEmpty) (rest ++ [b])
      rw [← List.cons_append, ← heq, hscan] at hfirst
      exact nomatch hfirst
    have hfirst :
        (scan false (us.chars ++ (lead ++ name) ++ ([b] ++ [] ++ []))).first = us ++ [u] := by
      rw [List.append_nil, List.append_nil, List.append_assoc, h]
      rfl
    have hswap := scan_swap hx hp hq (by simp) hopen
      (fun hnil => absurd hnil (by simp [hname])) hfirst
    have hlast : Lexeme.next (false || !us.isEmpty) (lead ++ name) = simpleTest (lead ++ name) := by
      rw [hcons]
      exact next_eq_simpleTest hsolid'.1 hsolid'.2 _ _
    rw [← hlast] at hitem'
    rw [List.nil_append, List.append_nil, List.append_nil, scan_of_token hitem', scan_nil] at hswap
    exact ⟨_, hswap⟩
  · refine dropLastBlanks_reverse fun z d heq hd hz => ?_
    obtain hnil | ⟨front, e, rfl⟩ := List.eq_nil_or_concat name
    · exact hname hnil
    · rw [List.concat_eq_append] at heq hread
      simp only [← List.append_assoc] at heq
      obtain ⟨rfl, hlast⟩ := List.append_inj' heq rfl
      obtain rfl := (List.cons.inj hlast).1
      rw [List.append_assoc] at hread hz
      exact identifier?_blanks (hlead.of_append_left (hsettled.of_append_left hz)) hd hb _ hread

/-- A clause is read from its text without blanks around it. -/
theorem scan_trimBlanks (h : scan false text = .whole ts) (hne : ts ≠ [])
    (hfirst : ts.head?.any Token.isCombinator = false)
    (hlast : ts.getLast?.any Token.isCombinator = false) :
    trimBlanks text ≠ [] ∧ ∃ us, scan false (trimBlanks text) = .whole us ∧
      us.map Token.value = ts.map Token.value := by
  obtain hnil | ⟨us, u, rfl⟩ := List.eq_nil_or_concat ts
  · exact absurd hnil hne
  · rw [List.concat_eq_append] at h hfirst hlast ⊢
    have hu : u.isCombinator = false := by simpa using hlast
    have hsolid : Solid text := by
      cases us with
      | nil =>
        exact (next_test (scan_whole_cons h).1 (Token.value_ne_combinator hu)).1
      | cons t us =>
        have ht : t.isCombinator = false := by simpa using hfirst
        exact (next_test (scan_whole_cons h).1 (Token.value_ne_combinator ht)).1
    have hdrop : dropBlanks text = text := dropBlanks_eq_self fun c hc => (hsolid c hc).1
    obtain ⟨rfl, -, hscan⟩ := scan_whole_split h
    obtain ⟨hitem, htext, -⟩ := scan_whole_cons hscan
    obtain ⟨raw, hraw, hpos, -⟩ := Lexeme.next_raw hitem
    obtain hnil | ⟨x, b, hconcat⟩ := List.eq_nil_or_concat u.raw.toList
    · rw [htext, hnil] at hraw
      exact absurd (List.append_eq_nil_iff.mp hraw.symm).1 hpos
    · rw [List.concat_eq_append] at hconcat
      have hchars : Clause.chars us ++ Clause.chars [u] = Clause.chars us ++ x ++ [b] := by
        rw [htext, hconcat, Clause.chars_nil, List.append_nil, List.append_assoc]
      rw [hchars] at h hdrop ⊢
      obtain hsame | ⟨hb, hx, hshort⟩ := trimBlanks_concat hdrop
      · rw [hsame]
        exact ⟨by simp, _, h, rfl⟩
      · rw [List.append_assoc] at h
        obtain ⟨⟨raw', hread⟩, hkept⟩ := scan_trim h hconcat hu hb hx
        rw [hshort, hkept]
        refine ⟨fun hempty => ?_, _, hread, ?_⟩
        · rw [hempty, scan_nil] at hread
          exact absurd (congrArg Scan.first hread) (by simp [Scan.whole])
        · simp

end Scans

end TreeQuery
