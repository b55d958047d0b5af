import TreeQuery.Proofs.Selector.Accounting
import TreeQuery.Proofs.Selector.Arguments

/-!
# Blanks around a text

A text that is accepted is read without the blanks around it. Read as it stands, it begins with a
combinator or ends with one, or a name takes the first blank behind it, and still nothing is left
over.
-/

namespace TreeQuery

open Written

variable {a b : Bool} {x t text rest : List Char} {item : Option TokenValue}
  {items : List (Option Token)}

section Ends

lemma boundary_of_blanks (ht : dropBlanks t = []) : Boundary t := by
  cases t with
  | nil => exact boundary_nil
  | cons c t => exact boundary_blank (List.dropWhile_eq_nil_iff.mp ht c List.mem_cons_self) t

lemma piece_of_blanks (ht : dropBlanks t = []) : Piece [] t := by
  cases t with
  | nil => exact ⟨.nil, Continues.nil.tail, nofun, fun hne => absurd rfl hne⟩
  | cons c t =>
    have hpatch := (isGap_of_dropBlanks_nil ht).patch (z := []) (y := []) (List.cons_ne_nil c t)
      Continues.nil.opens .nil nofun fun hne => absurd rfl hne
    rw [List.append_nil] at hpatch
    exact hpatch.toPiece

lemma dropBlanks_of_suffix (ht : dropBlanks t = []) (h : rest <:+ t) : dropBlanks rest = [] :=
  List.dropWhile_eq_nil_iff.mpr fun c hc => List.dropWhile_eq_nil_iff.mp ht c (h.mem hc)

/-- Blanks are read as one combinator. -/
theorem scan_blanks (a : Bool) (ht : dropBlanks t = []) : (scan a t).rest = [] := by
  by_cases hne : t = []
  · rw [hne, scan_nil]
    rfl
  · have hitem : (Lexeme.next a t).item? = some (some (.combinator .descendant), []) := by
      rw [next_of_nil ht hne]
      rfl
    rw [scan_rest_of_item hitem, scan_nil]
    rfl

/-- A name may take the first of the blanks behind it. -/
theorem identifier?_append_blanks (hx : Settled x) (ht : dropBlanks t = []) {name : List Char}
    (h : identifier? x = some (name, [])) :
    ∃ name rest, identifier? (x ++ t) = some (name, rest) ∧ rest <:+ t := by
  have hplain := h
  rw [← List.append_nil x] at hplain
  have hboundary := boundary_of_blanks ht
  obtain hnone | ⟨name', rest, -, -, -, hsome⟩ | ⟨-, hopen⟩ := identifier?_append_tail hx
  · exact nomatch (hnone _ boundary_nil).symm.trans hplain
  · obtain ⟨-, hrest⟩ := Prod.mk.inj (Option.some.inj ((hsome _ boundary_nil).symm.trans hplain))
    rw [List.append_nil] at hrest
    subst hrest
    exact ⟨name', t, hsome _ hboundary, List.suffix_refl _⟩
  · refine ⟨_, _, hopen _ hboundary, ?_⟩
    have hafter : afterBlank t <:+ t := by
      cases t with
      | nil => exact List.suffix_refl _
      | cons c t =>
        rw [afterBlank]
        split
        · exact List.suffix_cons c t
        · exact List.suffix_refl _
    exact List.IsSuffix.trans ⟨_, splitIdentifier_append (afterBlank t)⟩ hafter

lemma namedLexeme_append_blanks (value : String → TokenValue) (hx : Settled x)
    (ht : dropBlanks t = []) (h : (namedLexeme value x).item? = some (item, [])) :
    ∃ item rest, (namedLexeme value (x ++ t)).item? = some (item, rest) ∧ rest <:+ t := by
  obtain ⟨name, hname, -⟩ := namedLexeme_item? value h
  obtain ⟨name', rest, hread, hsuffix⟩ := identifier?_append_blanks hx ht hname
  rw [namedLexeme, hread]
  exact ⟨_, rest, rfl, hsuffix⟩

lemma callLexeme_append_blanks {spelled : List Char} (hx : Settled x) (ht : dropBlanks t = [])
    (h : (callLexeme spelled (splitArgument x)).item? = some (item, [])) :
    ∃ item rest, (callLexeme spelled (splitArgument (x ++ t))).item? = some (item, rest) ∧
      rest <:+ t := by
  have hpatch : ∀ {p}, dropBlanks p = [] → Patch False [] p := fun hp =>
    ⟨piece_of_blanks hp, fun hne => absurd rfl hne⟩
  have hcopied : ∀ {argument rest},
      splitArgument (x ++ ([] ++ [])) = (argument, rest ++ ([] ++ [])) →
        splitArgument (x ++ (t ++ [])) = (argument, rest ++ (t ++ [])) →
          ∃ item rest, (callLexeme spelled (splitArgument (x ++ t))).item? = some (item, rest) ∧
            rest <:+ t := by
    intro argument rest hnil hblanks
    simp only [List.append_nil] at hnil hblanks
    rw [hnil] at h
    have hcopy := callLexeme_append spelled argument rest t
    rw [h, ← hblanks] at hcopy
    exact ⟨item, [] ++ t, hcopy, List.suffix_refl _⟩
  obtain habsent | ⟨argument, front, rest, -, hclosed⟩ | ⟨inner, front, rest, -, hwithin⟩ |
    ⟨rest, hsuffix, hpast⟩ | ⟨a, b, rest, -, hnil, -⟩ := argumentReading hx False []
  · exact hcopied (habsent [] (hpatch rfl)) (habsent t (hpatch ht))
  · exact hcopied (hclosed [] (piece_of_blanks rfl)) (hclosed t (piece_of_blanks ht))
  · exact hcopied (hwithin [] (hpatch rfl)) (hwithin t (hpatch ht))
  · obtain rfl := List.suffix_nil.mp hsuffix
    obtain ⟨argument, hargument, hother⟩ := hpast t (piece_of_blanks ht)
    rw [List.append_nil] at hargument
    have hsome := isSome_callLexeme spelled (splitArgument (x ++ t))
    obtain ⟨⟨item', rest'⟩, hread⟩ := Option.isSome_iff_exists.mp hsome
    have hrest := hread
    rw [hargument] at hrest
    rw [← callLexeme_rest hother hrest] at hread
    exact ⟨item', [], hread, List.nil_suffix⟩
  · cases b <;> cases hnil

lemma colon_append_blanks (hx : Settled x) (ht : dropBlanks t = [])
    (h : (simpleTest (':' :: x)).item? = some (item, [])) :
    ∃ item rest, (simpleTest (':' :: (x ++ t))).item? = some (item, rest) ∧ rest <:+ t := by
  have hboundary := boundary_of_blanks ht
  have hread : (simpleTest (':' :: (x ++ []))).item? = some (item, [] ++ []) := by
    rwa [List.append_nil]
  have hunopened : Unopened [] := .inr nofun
  have hclosed : ClosedPosition x := closedPosition_of_item boundary_nil hunopened hread
  have hstructural := structural?_append hboundary hclosed
  rw [List.cons_append] at hstructural
  rw [simpleTest_colon_eq] at h
  rw [simpleTest_colon_eq, hstructural]
  cases hfound : structural? (':' :: x) with
  | some found =>
    obtain ⟨result, rest⟩ := found
    rw [hfound] at h
    cases result with
    | error e => cases h
    | ok position =>
      obtain ⟨-, rfl⟩ := Prod.mk.inj (Option.some.inj h)
      exact ⟨_, t, rfl, List.suffix_refl _⟩
  | none =>
    rw [hfound] at h
    dsimp only [Option.map_none] at h ⊢
    rw [pseudo?_eq] at h ⊢
    cases hname : identifier? x with
    | none =>
      rw [hname] at h
      cases h
    | some found =>
      obtain ⟨name, after⟩ := found
      rw [hname, Option.map_some, Option.getD_some] at h
      by_cases hne : after = []
      · subst hne
        obtain ⟨name', rest, hname', hsuffix⟩ := identifier?_append_blanks hx ht hname
        have hrest := boundary_of_blanks (dropBlanks_of_suffix ht hsuffix)
        rw [hname', Option.map_some, Option.getD_some]
        dsimp only
        rw [splitArgument_of_unopened fun c hc => (hrest c hc).2]
        exact ⟨_, rest, rfl, hsuffix⟩
      · rw [← List.append_nil x] at hname
        obtain ⟨rest, hafter, -, hrest, hsome⟩ | hlength := identifier?_seam hx boundary_nil hname
        · rw [List.append_nil] at hafter
          subst hafter
          rw [hsome t hboundary fun hnil => absurd hnil hne, Option.map_some, Option.getD_some]
          exact callLexeme_append_blanks hrest ht h
        · cases hlength

/-- A simple test at the end of a text is read in front of blanks, all but one of which are left. -/
theorem simpleTest_append_blanks (hx : Settled x) (ht : dropBlanks t = [])
    (h : (simpleTest x).item? = some (item, [])) :
    ∃ item rest, (simpleTest (x ++ t)).item? = some (item, rest) ∧ rest <:+ t := by
  cases x with
  | nil => cases h
  | cons c x =>
    by_cases hc : c ∈ ['*', '#', '.', '[', ':']
    · have hx' : Settled x := hx.of_cons (by rintro rfl; exact absurd hc (by decide))
      simp only [List.mem_cons, List.not_mem_nil, or_false] at hc
      obtain rfl | rfl | rfl | rfl | rfl := hc
      · obtain ⟨-, rfl⟩ := Prod.mk.inj (Option.some.inj h)
        exact ⟨_, t, rfl, List.suffix_refl _⟩
      · exact namedLexeme_append_blanks .id hx' ht h
      · exact namedLexeme_append_blanks .className hx' ht h
      · rw [simpleTest_bracket_eq] at h
        rw [List.cons_append, simpleTest_bracket_eq]
        split at h
        · rename_i hread
          obtain ⟨-, rfl⟩ := Prod.mk.inj (Option.some.inj h)
          rw [attributeTest?_of_append hread]
          exact ⟨_, t, rfl, List.suffix_refl _⟩
        · cases h
      · exact colon_append_blanks hx' ht h
    · rw [simpleTest_other hc] at h
      rw [List.cons_append, simpleTest_other hc, ← List.cons_append]
      exact namedLexeme_append_blanks .tag hx ht h

end Ends

section Scans

variable {clauses : List Clause}

lemma scan_head_ne (h : (scan a x).rest = []) : ∀ d ∈ x.head?, d ≠ '(' := by
  rintro d hd rfl
  obtain ⟨more, rfl⟩ := List.head?_eq_some_iff.mp hd
  cases (scan_of_none (next_open a more)).2.symm.trans h

lemma settled_of_scan (h : (scan a x).rest = []) : Settled x := by
  obtain ⟨front, items, b, htext, hcrosses⟩ := Crosses.exists_of_scan a x
  rw [h, List.append_nil] at htext
  exact htext ▸ hcrosses.settled

/-- A simple test at the end of a text is taken there also in front of blanks. -/
theorem next_append_blanks {value : TokenValue} (hx : Settled x) (ht : dropBlanks t = [])
    (hvalue : ∀ k, value ≠ .combinator k)
    (h : (Lexeme.next a x).item? = some (some value, [])) :
    ∃ item rest, (Lexeme.next a (x ++ t)).item? = some (item, rest) ∧ rest <:+ t := by
  obtain ⟨hsolid, -, hnext⟩ := next_test h hvalue
  rw [hnext a] at h
  obtain ⟨item, rest, hread, hsuffix⟩ := simpleTest_append_blanks hx ht h
  cases x with
  | nil => cases h
  | cons c x =>
    obtain ⟨hblank, hsign⟩ := hsolid c rfl
    rw [List.cons_append] at hread ⊢
    rw [next_eq_simpleTest hblank hsign a]
    exact ⟨item, rest, hread, hsuffix⟩

/-- What is taken before the end of a text is taken also in front of blanks. -/
theorem next_append_blanks_of_ne (hx : Settled x) (ht : dropBlanks t = []) (hne : rest ≠ [])
    (hopen : ∀ d ∈ rest.head?, d ≠ '(') (h : (Lexeme.next a x).item? = some (item, rest)) :
    (Lexeme.next a (x ++ t)).item? = some (item, rest ++ t) := by
  have hpatch : ∀ {p}, dropBlanks p = [] → Patch False [] p := fun hp =>
    ⟨piece_of_blanks hp, fun hne => absurd rfl hne⟩
  have hne' : rest ++ [] ≠ [] := by rwa [List.append_nil]
  have hcalls : CallsAlike x rest ([] ++ []) (t ++ []) item :=
    callsAlike (hpatch rfl) (hpatch ht) hne' fun d hd => stopsAlike (hx.of_suffix hd)
  have hswap := next_swap hx (piece_of_blanks rfl) (piece_of_blanks ht) hne' hcalls (.inr hopen)
    (fun hnil => absurd hnil hne) (by simpa using h)
  rwa [List.append_nil] at hswap

/-- A text that is read to its end, and not to a combinator, is read to its end with blanks behind
it. -/
theorem scan_append_blanks {a : Bool} {x : List Char} (ht : dropBlanks t = []) (hx : x ≠ [])
    (hscan : (scan a x).rest = [])
    (hlast : ∀ clause ∈ (scan a x).clauses, ∀ u ∈ clause.getLast?, u.isCombinator = false) :
    (scan a (x ++ t)).rest = [] := by
  cases hitem : (Lexeme.next a x).item? with
  | none => exact absurd ((scan_of_none hitem).2.symm.trans hscan) hx
  | some found =>
    obtain ⟨item, rest⟩ := found
    obtain ⟨raw, htext, hraw, -⟩ := Lexeme.next_raw hitem
    have hshorter : rest.length < x.length := length_lt_of_splits ⟨htext, hraw⟩
    have hsettled := settled_of_scan hscan
    have hrest : (scan item.isSome rest).rest = [] := (scan_rest_of_item hitem).symm.trans hscan
    by_cases hne : rest = []
    · subst hne
      cases item with
      | none => exact absurd rfl (Lexeme.next_separator hitem).2.1
      | some value =>
        have hvalue : ∀ k, value ≠ .combinator k := by
          rintro k rfl
          have hplain := hlast (scan a x).first List.mem_cons_self
          rw [scan_of_token hitem, scan_nil] at hplain
          cases hplain _ rfl
        obtain ⟨item', rest', hitem', hsuffix⟩ := next_append_blanks hsettled ht hvalue hitem
        rw [scan_rest_of_item hitem']
        exact scan_blanks _ (dropBlanks_of_suffix ht hsuffix)
    · rw [scan_rest_of_item (next_append_blanks_of_ne hsettled ht hne (scan_head_ne hrest) hitem)]
      refine scan_append_blanks ht hne hrest fun clause hclause u hu => ?_
      cases item with
      | none =>
        rw [scan_of_comma hitem] at hlast
        exact hlast clause (List.mem_cons_of_mem _ hclause) u hu
      | some value =>
        rw [scan_of_token hitem] at hlast
        obtain rfl | hclause := List.mem_cons.mp hclause
        · exact hlast _ List.mem_cons_self u (List.mem_getLast?_cons hu)
        · exact hlast clause (List.mem_cons_of_mem _ hclause) u hu
termination_by x.length

lemma scan_rest_congr {a' : Bool} {y : List Char} (hx : x ≠ []) (h : (scan a x).rest = [])
    (heq : (Lexeme.next a x).item? = (Lexeme.next a' y).item?) : (scan a' y).rest = [] := by
  cases hitem : (Lexeme.next a x).item? with
  | none => exact absurd ((scan_of_none hitem).2.symm.trans h) hx
  | some found =>
    rw [scan_rest_of_item hitem] at h
    rw [scan_rest_of_item (heq.symm.trans hitem), h]

/-- Blanks in front of a text are taken with the comma or the sign behind them, or as a combinator
of their own. -/
theorem next_of_dropBlanks {c : Char} {more : List Char} (a : Bool)
    (h : dropBlanks x = c :: more) :
    (Lexeme.next a x).item? = (Lexeme.next a (c :: more)).item? ∨
      (Lexeme.next a x).item? = some (some (.combinator .descendant), c :: more) ∧
        signOf? c = none := by
  have hself : dropBlanks (c :: more) = c :: more := h ▸ dropBlanks_dropBlanks x
  by_cases hlength : (c :: more).length < x.length
  · rw [next_of_cons h, next_of_cons hself]
    by_cases hcomma : a = true ∧ c = ','
    · exact .inl (by rw [if_pos hcomma, if_pos hcomma])
    · rw [if_neg hcomma, if_neg hcomma, if_pos hlength]
      cases hsign : signOf? c with
      | some k => exact .inl rfl
      | none => exact .inr ⟨rfl, rfl⟩
  · have htext := (dropBlanks_suffix x).eq_of_length_le (by rw [h]; omega)
    rw [← htext, h]
    exact .inl rfl

/-- Blanks in front of a text are read as one combinator, together with the sign behind them if
there is one. -/
theorem scan_rest_of_dropBlanks (h : (scan false (dropBlanks x)).rest = []) :
    (scan false x).rest = [] := by
  cases hdrop : dropBlanks x with
  | nil => exact scan_blanks false hdrop
  | cons c more =>
    rw [hdrop] at h
    obtain hsame | ⟨hitem, hsign⟩ := next_of_dropBlanks false hdrop
    · exact scan_rest_congr (List.cons_ne_nil c more) h hsame.symm
    · have hself : dropBlanks (c :: more) = c :: more := hdrop ▸ dropBlanks_dropBlanks x
      have hnext : ∀ afterToken, Lexeme.next afterToken (c :: more) = _ :=
        fun _ => next_of_cons hself
      have hcomma : c ≠ ',' := by
        rintro rfl
        have hname : identifier? (',' :: more) = none :=
          identifier?_eq_none (identifierUnit?_eq_none (by decide))
        have hnone : (Lexeme.next false (',' :: more)).item? = none := by
          rw [hnext, if_neg (by simp), hsign]
          dsimp only
          rw [if_neg (Nat.lt_irrefl _), simpleTest_other (by decide), namedLexeme, hname]
          rfl
        cases (scan_of_none hnone).2.symm.trans h
      -- A comma apart, the same is taken at the start of a clause and behind a token.
      have hafter : Lexeme.next true (c :: more) = Lexeme.next false (c :: more) := by
        have hfalse : ¬(false = true ∧ c = ',') := by simp
        rw [hnext, hnext, if_neg hfalse, if_neg fun hboth => hcomma hboth.2]
      rw [scan_rest_of_item hitem, Option.isSome_some, scan_eq, hafter, ← scan_eq]
      exact h

end Scans

section Trims

/-- What is trimmed from the end of a text is blanks. -/
theorem dropLastBlanks_append (text : List Char) :
    ∃ blanks, text = blanks ++ dropLastBlanks text ∧ ∀ c ∈ blanks, isBlank c = true := by
  induction text with
  | nil => exact ⟨[], rfl, nofun⟩
  | cons c earlier ih =>
    rw [dropLastBlanks]
    split
    · rename_i hblank
      obtain ⟨blanks, heq, hblanks⟩ := ih
      refine ⟨c :: blanks, congrArg (c :: ·) heq, fun d hd => ?_⟩
      obtain rfl | hd := List.mem_cons.mp hd
      · exact (Bool.and_eq_true _ _ ▸ hblank).1
      · exact hblanks d hd
    · exact ⟨[], rfl, nofun⟩

lemma trimBlanks_append (text : List Char) :
    ∃ blanks, dropBlanks text = trimBlanks text ++ blanks ∧ dropBlanks blanks = [] := by
  obtain ⟨blanks, heq, hblanks⟩ := dropLastBlanks_append (dropBlanks text).reverse
  refine ⟨blanks.reverse, ?_, List.dropWhile_eq_nil_iff.mpr fun c hc =>
    hblanks c (List.mem_reverse.mp hc)⟩
  rw [trimBlanks, ← List.reverse_append, ← heq, List.reverse_reverse]

/-- A text in which every escape is complete ends with an even number of backslashes. -/
theorem even_of_settled (hx : Settled x) :
    (x.reverse.takeWhile (· == '\\')).length % 2 = 0 := by
  induction hx with
  | nil => rfl
  | @ordinary c text hc _ ih =>
    rw [List.reverse_cons, List.takeWhile_append]
    split
    · rename_i hall
      have hstop : [c].takeWhile (· == '\\') = [] := by simp [hc]
      rw [hstop, List.append_nil, ← hall]
      exact ih
    · exact ih
  | @escape c text _ ih =>
    rw [List.reverse_cons, List.reverse_cons, List.append_assoc, List.takeWhile_append]
    split
    · rename_i hall
      rw [List.length_append, ← hall]
      by_cases hc : c = '\\'
      · simp [hc, ih]
      · simp [hc, ih]
    · exact ih

lemma dropLastBlanks_of_blank {b : Char} (hb : isBlank b = true) (hx : Settled x) :
    dropLastBlanks (b :: x.reverse) = dropLastBlanks x.reverse := by
  rw [dropLastBlanks, hb, even_of_settled hx]
  rfl

lemma dropLastBlanks_dropLastBlanks (text : List Char) :
    dropLastBlanks (dropLastBlanks text) = dropLastBlanks text := by
  fun_induction dropLastBlanks text with
  | case1 => rfl
  | case2 c earlier hblank ih => exact ih
  | case3 c earlier hblank => rw [dropLastBlanks, if_neg hblank]

/-- A text without blanks around it starts with none and ends with none that is not escaped. -/
theorem trimBlanks_eq_self_iff : trimBlanks x = x ↔
    (∀ c ∈ x.head?, isBlank c = false) ∧ ∀ z d, x = z ++ [d] → isBlank d = true → ¬Settled z := by
  constructor
  · intro h
    have hdrop : dropBlanks x = x := by
      obtain ⟨blanks, heq, -⟩ := trimBlanks_append x
      refine (dropBlanks_suffix x).eq_of_length_le ?_
      rw [heq, List.length_append, h]
      omega
    refine ⟨isBlank_of_dropBlanks hdrop, ?_⟩
    rintro z d rfl hd hz
    rw [trimBlanks, hdrop, List.reverse_append, List.reverse_singleton, List.singleton_append,
      dropLastBlanks_of_blank hd hz] at h
    have hlength := congrArg List.length h
    have hle := length_dropLastBlanks_le z.reverse
    simp only [List.length_reverse, List.length_append, List.length_singleton] at hlength hle
    omega
  · rintro ⟨hhead, hlast⟩
    rw [trimBlanks, dropBlanks_eq_self hhead, dropLastBlanks_reverse hlast]

lemma trimBlanks_trimBlanks (text : List Char) :
    trimBlanks (trimBlanks text) = trimBlanks text := by
  have hdrop : dropBlanks (trimBlanks text) = trimBlanks text := by
    obtain ⟨blanks, heq, -⟩ := trimBlanks_append text
    refine dropBlanks_eq_self fun c hc => isBlank_of_dropBlanks (dropBlanks_dropBlanks text) c ?_
    rw [heq, List.head?_append, show (trimBlanks text).head? = some c from hc]
    rfl
  rw [trimBlanks, hdrop, trimBlanks, List.reverse_reverse, dropLastBlanks_dropLastBlanks]

/-- Blanks put around a text in which every escape is complete are trimmed again. -/
theorem trimBlanks_margins {lead trail : List Char} (hlead : dropBlanks lead = [])
    (htrail : dropBlanks trail = []) (hne : x ≠ []) (hx : Settled x) (htrim : trimBlanks x = x) :
    trimBlanks (lead ++ x ++ trail) = x := by
  obtain ⟨hhead, hlast⟩ := trimBlanks_eq_self_iff.mp htrim
  have hdrop : dropBlanks (lead ++ x ++ trail) = x ++ trail := by
    rw [List.append_assoc, dropBlanks_append_of_nil hlead]
    refine dropBlanks_eq_self fun c hc => hhead c ?_
    obtain ⟨d, x, rfl⟩ := List.exists_cons_of_ne_nil hne
    exact hc
  have hback : ∀ trail : List Char, (∀ c ∈ trail, isBlank c = true) →
      dropLastBlanks (x ++ trail).reverse = dropLastBlanks x.reverse := by
    intro trail htrail
    induction trail using List.reverseRecOn with
    | nil => rw [List.append_nil]
    | append_singleton trail b ih =>
      have hmem : ∀ c ∈ trail, isBlank c = true := fun c hc =>
        htrail c (List.mem_append_left _ hc)
      have hsettled : Settled trail := .of_not_mem fun hslash => nomatch hmem _ hslash
      have hb := htrail b (List.mem_append_right _ List.mem_cons_self)
      rw [← List.append_assoc, List.reverse_append, List.reverse_singleton, List.singleton_append,
        dropLastBlanks_of_blank hb (hx.append hsettled), ih hmem]
  rw [trimBlanks, hdrop, hback trail (List.dropWhile_eq_nil_iff.mp htrail),
    dropLastBlanks_reverse hlast]

/-- Nothing is left over of a text that is accepted. -/
theorem SelectorList.scan_rest_of_parse {text : String} {list : SelectorList}
    (h : SelectorList.parse text = .ok list) : (scan false text.toList).rest = [] := by
  obtain ⟨hne, -, hrest, hcheck, rfl⟩ := SelectorList.parse_eq_ok_iff.mp h
  obtain ⟨blanks, htext, hblanks⟩ := trimBlanks_append text.toList
  have hread : (scan false (dropBlanks text.toList)).rest = [] := by
    rw [htext]
    exact scan_append_blanks hblanks hne hrest fun clause hclause =>
      (Clause.wellFormed_of_check (hcheck clause hclause)).last
  exact scan_rest_of_dropBlanks hread

lemma SelectorList.unread_of_parse {text : String} {list : SelectorList}
    (h : SelectorList.parse text = .ok list) : SelectorList.unread text = 0 := by
  rw [SelectorList.unread, SelectorList.scan_rest_of_parse h]
  rfl

end Trims

end TreeQuery
