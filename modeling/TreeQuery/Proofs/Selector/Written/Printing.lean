import TreeQuery.Proofs.Selector.Written.Scans

/-!
# Reading what is written

Every written group is accepted and gives back its clauses. A blank behind an escape at the very end
is taken for a blank around the text, and the escape stands without it.
-/

namespace TreeQuery

namespace Written

variable {last : Bool} {p q text : List Char}

section Trimming

/-- Whether a text is another one, or that one and the blank of an escape. -/
def Trims (p q : List Char) : Prop :=
  ∃ text c, q = text ++ [c] ∧ isBlank c = false ∧ (p = q ∨ c ≠ '\\' ∧ p = q ++ [' '])

lemma Trims.prepend (h : Trims p q) (text : List Char) : Trims (text ++ p) (text ++ q) := by
  obtain ⟨front, c, rfl, hc, hp⟩ := h
  refine ⟨text ++ front, c, (List.append_assoc ..).symm, hc, hp.imp ?_ (And.imp_right ?_)⟩
  · exact congrArg (text ++ ·)
  · rintro rfl
    exact (List.append_assoc ..).symm

lemma trims_self {c : Char} (hc : isBlank c = false) (text : List Char) :
    Trims (text ++ [c]) (text ++ [c]) :=
  ⟨text, c, rfl, hc, .inl rfl⟩

lemma Trims.trimBlanks_eq (h : Trims p q) {c : Char} (hp : p = c :: text)
    (hc : isBlank c = false) : trimBlanks p = q := by
  obtain ⟨front, d, rfl, hd, hend⟩ := h
  have hdrop : dropBlanks p = p := by
    rw [hp, dropBlanks, List.dropWhile_cons_of_neg (by simp [hc])]
  have hstop : dropLastBlanks (d :: front.reverse) = d :: front.reverse := by
    rw [dropLastBlanks, hd, Bool.false_and]
    rfl
  rw [trimBlanks, hdrop]
  obtain rfl | ⟨hslash, rfl⟩ := hend
  · simp [hstop]
  · have hblank : dropLastBlanks (' ' :: d :: front.reverse) = d :: front.reverse := by
      rw [dropLastBlanks, List.takeWhile_cons_of_neg (by simpa using hslash), if_pos (by decide),
        hstop]
    simp [hblank]

lemma escapeChar_trims (c : Char) : Trims (escapeChar false c) (escapeChar true c) := by
  rw [escapeChar, escapeChar]
  cases hplain : isWordChar c || !isAscii c with
  | true =>
    have hname : continuesIdentifier c = true := by
      simp only [Bool.or_eq_true, Bool.not_eq_true'] at hplain
      simpa only [continuesIdentifier, Bool.or_eq_true, Bool.not_eq_true'] using
        hplain.imp_left .inl
    exact trims_self (isBlank_of_continuesIdentifier hname) []
  | false =>
    have hascii : isAscii c = true := by simpa using (Bool.or_eq_false_iff.mp hplain).2
    obtain ⟨hdigits, -, -⟩ := code_of_ascii hascii
    obtain ⟨front, d, heq⟩ : ∃ front d, Nat.toDigits 16 c.toNat = front ++ [d] :=
      ⟨_, _, (List.dropLast_concat_getLast Nat.toDigits_ne_nil).symm⟩
    have hd : isHexDigit d = true := hdigits d (by simp [heq])
    have hslash : d ≠ '\\' := by
      rintro rfl
      exact absurd hd (by decide)
    have hblank : isBlank d = false := isBlank_eq_false (by decide) hd
    rw [heq]
    exact ⟨'\\' :: front, d, by simp, hblank, .inr ⟨hslash, by simp⟩⟩

lemma spell_trims {chars : List Char} (hne : chars ≠ []) :
    Trims (spell false chars) (spell true chars) := by
  induction chars with
  | nil => exact absurd rfl hne
  | cons c chars ih =>
    rw [spell, spell]
    cases chars with
    | nil => simpa [spell] using escapeChar_trims c
    | cons d chars => simpa using (ih (by simp)).prepend (escapeChar false c)

lemma Place.trims (p : Place) : Trims p.text p.text := by
  cases p with
  | plain position _ ofType =>
    cases ofType with
    | true =>
      have he : isBlank 'e' = false := by decide
      simpa [Place.text, kind] using
        trims_self he (':' :: keyword position ++ ['-', 'o', 'f', '-', 't', 'y', 'p'])
    | false =>
      have hd : isBlank 'd' = false := by decide
      simpa [Place.text, kind] using
        trims_self hd (':' :: keyword position ++ ['-', 'c', 'h', 'i', 'l'])
  | counted fromEnd ofType count =>
    have hclose : isBlank ')' = false := by decide
    simpa [Place.text] using
      trims_self hclose (':' :: keyword (counting fromEnd) ++ kind ofType ++ '(' :: count.text)

lemma Attribute.trims (a : Attribute) : Trims a.text a.text := by
  have hclose : isBlank ']' = false := by decide
  rw [Attribute.text]
  cases a.comparison with
  | none => exact trims_self hclose _
  | some compared =>
    obtain ⟨operator, value⟩ := compared
    simpa [comparisonText] using trims_self hclose ('[' :: spell false a.name.chars ++
      operator.symbol.toList ++ '"' :: spell false value.chars ++ ['"'])

lemma Filter.trims (f : Filter) : Trims (f.text false) (f.text true) := by
  cases f with
  | id name => exact (spell_trims name.nonempty).prepend ['#']
  | className name => exact (spell_trims name.nonempty).prepend ['.']
  | «attribute» a => exact a.trims
  | place p => exact p.trims
  | pseudo name argument =>
    have hclose : isBlank ')' = false := by decide
    obtain htext | ⟨body, htext⟩ := name.text_cases argument
    · rw [htext, htext]
      exact (spell_trims name.nonempty).prepend [':']
    · rw [htext, htext]
      exact trims_self hclose _

lemma tagText_trims (tag : Option Name) : Trims (tagText false tag) (tagText true tag) := by
  cases tag with
  | none => exact trims_self (by decide) []
  | some name => exact spell_trims name.nonempty

/-- Tests behind a text end it. -/
theorem filtersText_trims (p : Bool → List Char) (hp : Trims (p false) (p true))
    (filters : List Filter) :
    Trims (p (false && filters.isEmpty) ++ filtersText false filters)
      (p (true && filters.isEmpty) ++ filtersText true filters) := by
  induction filters generalizing p with
  | nil => simpa [filtersText] using hp
  | cons f filters ih => exact (ih (f.text ·) f.trims).prepend (p false)

lemma Compound.trims (c : Compound) : Trims (c.text false) (c.text true) := by
  cases c with
  | tagged tag filters => exact filtersText_trims (tagText · tag) (tagText_trims tag) filters
  | untagged first filters => exact filtersText_trims (first.text ·) first.trims filters

lemma Row.trims (r : Row) : Trims (r.text false) (r.text true) := by
  cases r with
  | single c => exact c.trims
  | joined c j rest => exact (Row.trims rest).prepend (c.text false ++ j.text)

lemma Group.trims (g : Group) : Trims (g.text false) (g.text true) := by
  cases g with
  | single lead r => exact r.trims.prepend (leadText lead)
  | separated lead r comma rest =>
    exact (Group.trims rest).prepend (leadText lead ++ r.text false ++ comma.text)

/-- The text of a group without blanks around it. -/
theorem Group.trimBlanks_eq (g : Group) : trimBlanks (g.text false) = g.text true := by
  obtain ⟨c, text, heq, hc, -⟩ := g.exists_head false
  exact g.trims.trimBlanks_eq heq hc

end Trimming

section Checking

lemma doubledCombinator?_append {ts : Clause} (h : ∀ t ∈ ts, t.isCombinator = false)
    (us : Clause) : Clause.doubledCombinator? (ts ++ us) = Clause.doubledCombinator? us := by
  induction ts with
  | nil => rfl
  | cons t ts ih =>
    obtain ⟨ht, hts⟩ := List.forall_mem_cons.mp h
    rw [List.cons_append, ← ih hts]
    cases ts ++ us with
    | nil => rfl
    | cons u vs => rw [Clause.doubledCombinator?, ht, Bool.false_and, if_neg Bool.false_ne_true]

lemma doubledCombinator?_cons {t u : Token} (hu : u.isCombinator = false) (ts : Clause) :
    Clause.doubledCombinator? (t :: u :: ts) = Clause.doubledCombinator? (u :: ts) := by
  rw [Clause.doubledCombinator?, hu, Bool.and_false, if_neg Bool.false_ne_true]

lemma Filter.isCombinator_eq (f : Filter) (raw : String) :
    Token.isCombinator ⟨raw, f.value⟩ = false := by
  cases f <;> rfl

lemma filterTokens_isCombinator (last : Bool) (filters : List Filter) :
    ∀ t ∈ filterTokens last filters, t.isCombinator = false := by
  induction filters with
  | nil => exact nofun
  | cons f filters ih => exact List.forall_mem_cons.mpr ⟨f.isCombinator_eq _, ih⟩

lemma Compound.isCombinator_tokens (last : Bool) (c : Compound) :
    ∀ t ∈ c.tokens last, t.isCombinator = false := by
  cases c with
  | tagged tag filters =>
    refine List.forall_mem_cons.mpr ⟨?_, filterTokens_isCombinator last filters⟩
    cases tag <;> rfl
  | untagged first filters => exact filterTokens_isCombinator last (first :: filters)

lemma Compound.exists_tokens (last : Bool) (c : Compound) :
    ∃ t ts, c.tokens last = t :: ts ∧ t.isCombinator = false := by
  have htokens := c.isCombinator_tokens last
  cases c <;> exact ⟨_, _, rfl, htokens _ List.mem_cons_self⟩

lemma Row.exists_tokens (last : Bool) (r : Row) :
    ∃ t ts, r.tokens last = t :: ts ∧ t.isCombinator = false := by
  cases r with
  | single c => exact c.exists_tokens last
  | joined c j rest =>
    obtain ⟨t, ts, heq, ht⟩ := c.exists_tokens false
    exact ⟨t, _, by rw [Row.tokens, heq]; rfl, ht⟩

lemma Row.getLast?_tokens (last : Bool) (r : Row) :
    ∃ t, (r.tokens last).getLast? = some t ∧ t.isCombinator = false := by
  cases r with
  | single c =>
    obtain ⟨t, ts, heq, -⟩ := c.exists_tokens last
    have hne : c.tokens last ≠ [] := by simp [heq]
    exact ⟨_, List.getLast?_eq_some_getLast hne,
      c.isCombinator_tokens last _ (List.getLast_mem hne)⟩
  | joined c j rest =>
    obtain ⟨t, heq, ht⟩ := Row.getLast?_tokens last rest
    refine ⟨t, ?_, ht⟩
    rw [Row.tokens, List.getLast?_append, List.getLast?_cons, heq]
    rfl

lemma Row.doubledCombinator?_tokens (last : Bool) (r : Row) :
    Clause.doubledCombinator? (r.tokens last) = none := by
  cases r with
  | single c =>
    have h := doubledCombinator?_append (c.isCombinator_tokens last) []
    rwa [List.append_nil] at h
  | joined c j rest =>
    obtain ⟨t, ts, heq, ht⟩ := rest.exists_tokens last
    rw [Row.tokens, doubledCombinator?_append (c.isCombinator_tokens false), heq,
      doubledCombinator?_cons ht, ← heq, Row.doubledCombinator?_tokens last rest]

lemma check_clause (last : Bool) (lead : Option Lead) (r : Row) :
    Clause.check (clause last lead r) = .ok () := by
  obtain ⟨t, hlast, ht⟩ := r.getLast?_tokens last
  obtain ⟨u, us, hhead, hu⟩ := r.exists_tokens last
  have hdoubled := r.doubledCombinator?_tokens last
  have hclauselast : (clause last lead r).getLast? = some t := by
    rw [clause, List.getLast?_append, hlast, Option.some_or]
  have hclausedoubled : Clause.doubledCombinator? (clause last lead r) = none := by
    cases lead with
    | none => exact hdoubled
    | some l =>
      change Clause.doubledCombinator? (l.token :: r.tokens last) = none
      rw [hhead, doubledCombinator?_cons hu, ← hhead, hdoubled]
  rw [Clause.check, hclauselast]
  simp [ht, hclausedoubled]

lemma Group.forM_check (last : Bool) (g : Group) :
    (g.clauses last).forM Clause.check = .ok () := by
  cases g with
  | single lead r =>
    rw [Group.clauses]
    change (do Clause.check (clause last lead r); List.forM [] Clause.check) = _
    rw [check_clause]
    rfl
  | separated lead r comma rest =>
    rw [Group.clauses]
    change (do Clause.check (clause false lead r); (rest.clauses last).forM Clause.check) = _
    rw [check_clause]
    exact Group.forM_check last rest

end Checking

/-- Reading a written group gives its clauses. -/
theorem Group.parse_print (g : Group) : SelectorList.parse g.print = .ok g.list := by
  have hending : Ending [] := .inl rfl
  obtain ⟨hclauses, hrest, hfault⟩ := g.scan_text true (fun _ => rfl) hending nofun
  obtain ⟨c, text, heq, -⟩ := g.exists_head true
  have hne : (g.text true).isEmpty = false := by simp [heq]
  rw [List.append_nil] at hclauses hrest hfault
  have htrim : trimBlanks g.print.toList = g.text true := by
    rw [Group.print, String.toList_ofList, g.trimBlanks_eq]
  simp only [SelectorList.parse, htrim, hne, hfault, hrest, hclauses, g.forM_check true, Group.list]
  rfl

end Written

end TreeQuery
