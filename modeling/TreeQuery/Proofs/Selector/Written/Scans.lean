import TreeQuery.Proofs.Selector.Written.Groups

/-!
# Scanning written groups

The scan of a written group gives its clauses and stops where the group ends, whatever comes behind
it. An argument that was taken up to the last parenthesis of the line is scanned with the rest of
the line behind it, so the argument is cut where it was written to end.
-/

namespace TreeQuery

namespace Scan

/-- Puts tokens in front. -/
def prepend (tokens : List Token) (s : Scan) : Scan :=
  { s with first := tokens ++ s.first }

@[simp] lemma prepend_nil (s : Scan) : s.prepend [] = s := rfl

@[simp] lemma cons_prepend (t : Token) (tokens : List Token) (s : Scan) :
    (s.prepend tokens).cons t = s.prepend (t :: tokens) := rfl

@[simp] lemma prepend_prepend (ts us : List Token) (s : Scan) :
    (s.prepend us).prepend ts = s.prepend (ts ++ us) := by
  simp [prepend]

end Scan

namespace Written

variable {afterToken last : Bool} {c : Char} {p text rest tail : List Char}

section Separators

lemma Blanks.dropBlanks_append (b : Blanks) (hc : isBlank c = false) (rest : List Char) :
    dropBlanks (b.chars ++ c :: rest) = c :: rest := by
  rw [dropBlanks, List.dropWhile_append_of_pos fun d hd => (b.blank d hd).1,
    List.dropWhile_cons_of_neg (by simp [hc])]

lemma next_sign (before after : Blanks) (s : Sign) (hc : isBlank c = false) (rest : List Char) :
    Lexeme.next afterToken (before.chars ++ s.char :: (after.chars ++ c :: rest)) =
      .token (.combinator s.combinator) (c :: rest) := by
  have hs : isBlank s.char = false := by cases s <;> rfl
  have hdrop := before.dropBlanks_append hs (after.chars ++ c :: rest)
  have hseparator : separator? (before.chars ++ s.char :: (after.chars ++ c :: rest)) = none := by
    rw [separator?, hdrop]
    cases s <;> rfl
  have hcombinator : combinator? (before.chars ++ s.char :: (after.chars ++ c :: rest)) =
      some (s.combinator, c :: rest) := by
    rw [combinator?, hdrop]
    cases s <;> simp [Sign.char, Sign.combinator, after.dropBlanks_append hc]
  rw [Lexeme.next, hcombinator]
  cases afterToken <;> simp [hseparator]

lemma Joint.next_append (j : Joint) (hc : begins c = true) (rest : List Char) :
    Lexeme.next true (j.text ++ c :: rest) = .token (.combinator j.combinator) (c :: rest) := by
  obtain ⟨hblank, hsign, -, -⟩ := begins_facts hc
  cases j with
  | blanks gap hne =>
    have hdrop := gap.dropBlanks_append hblank rest
    have hlen : (c :: rest).length < (gap.chars ++ c :: rest).length := by
      have := List.length_pos_iff.mpr hne
      rw [List.length_append]
      omega
    rw [Joint.text, Lexeme.next, combinator?_unsigned hdrop hsign, if_pos hlen]
    simp [separator?_eq_none hdrop hsign, Joint.combinator]
  | sign before s after =>
    rw [Joint.text, List.append_assoc, List.cons_append]
    exact next_sign before after s hblank rest

lemma Lead.next_append (l : Lead) (hc : begins c = true) (rest : List Char) :
    Lexeme.next afterToken (l.text ++ c :: rest) =
      .token (.combinator l.sign.combinator) (c :: rest) :=
  next_sign ⟨[], nofun⟩ l.after l.sign (begins_facts hc).1 rest

lemma Comma.next_append (comma : Comma) (hc : isBlank c = false) (rest : List Char) :
    Lexeme.next true (comma.text ++ c :: rest) = .separator (c :: rest) := by
  have hcomma : isBlank ',' = false := by decide
  have hseparator : separator? (comma.text ++ c :: rest) = some (c :: rest) := by
    rw [Comma.text, List.append_assoc, separator?, List.cons_append,
      comma.before.dropBlanks_append hcomma]
    exact congrArg some (comma.after.dropBlanks_append hc rest)
  rw [Lexeme.next]
  simp [hseparator]

end Separators

section Steps

/-- The scan of a text by the lexeme at its start. -/
def scanLexeme (text : List Char) : Lexeme → Scan
  | .separator rest => (scan false rest).separated
  | .token value rest => (scan true rest).cons ⟨String.ofList (before text rest), value⟩
  | .nested name head argument rest =>
    let split := splitUnread argument (scan false argument).rest.length
    (scan true (split.2 ++ ')' :: rest).tail).cons
      ⟨String.ofList (head ++ split.1 ++ [')']),
        .pseudo ⟨name, some (String.ofList split.1), false⟩⟩
  | .fault e => ⟨[], [], text, some e⟩
  | .unknown => ⟨[], [], text, none⟩

lemma scan_eq (afterToken : Bool) (text : List Char) :
    scan afterToken text = scanLexeme text (Lexeme.next afterToken text) := by
  rw [scan]
  split <;> rename_i heq <;> rw [heq] <;> rfl

lemma scan_token {value : TokenValue}
    (h : Lexeme.next afterToken (p ++ rest) = .token value rest) :
    scan afterToken (p ++ rest) = (scan true rest).cons ⟨String.ofList p, value⟩ := by
  have hbefore : before (p ++ rest) rest = p := by simp [before]
  rw [scan_eq, h, scanLexeme, hbefore]

lemma scan_separator (h : Lexeme.next afterToken text = .separator rest) :
    scan afterToken text = (scan false rest).separated := by
  rw [scan_eq, h, scanLexeme]

/-- An argument up to the last parenthesis of the line is cut where its scan stops. -/
theorem scan_nested {name : String} {head argument after : List Char}
    (h : Lexeme.next afterToken text = .nested name head (argument ++ tail) after)
    (hscan : (scan false (argument ++ tail)).rest = tail) (hending : Ending tail) :
    scan afterToken text = (scan true (tail ++ ')' :: after).tail).cons
      ⟨String.ofList (head ++ argument ++ [')']),
        .pseudo ⟨name, some (String.ofList argument), false⟩⟩ := by
  have hsplit : splitUnread (argument ++ tail) tail.length = (argument, tail) := by
    obtain rfl | ⟨more, rfl⟩ := hending <;> simp [splitUnread]
  rw [scan_eq, h, scanLexeme, hscan, hsplit]

lemma Ending.scan_eq (h : Ending tail) : scan true tail = ⟨[], [], tail, none⟩ := by
  have hnext : Lexeme.next true tail = .unknown := by
    obtain rfl | ⟨more, rfl⟩ := h
    · rfl
    · have hnone : identifier? (')' :: more) = none :=
        identifier?_eq_none (identifierUnit?_eq_none (by decide))
      rw [next_eq_simpleTest (by decide) (by decide)]
      simp [simpleTest, hnone]
  rw [Written.scan_eq, hnext, scanLexeme]

end Steps

section Groups

/-- A simple test that is no nested pseudo-class is one lexeme. -/
theorem Filter.scan_of_simpleTest {f : Filter}
    (h : simpleTest (f.text last ++ rest) = .token f.value rest) :
    scan afterToken (f.text last ++ rest) =
      (scan true rest).cons ⟨String.ofList (f.text last), f.value⟩ := by
  refine scan_token ?_
  obtain ⟨c, text, heq, hc⟩ := f.exists_head last
  rw [heq, List.cons_append] at h ⊢
  rw [← h]
  simp only [List.mem_cons, List.not_mem_nil, or_false] at hc
  obtain rfl | rfl | rfl | rfl := hc <;> exact next_eq_simpleTest (by decide) (by decide) _ _

lemma scan_tagText (afterToken : Bool) (tag : Option Name) (hlast : last = true → rest = [])
    (hrest : Boundary rest) :
    scan afterToken (tagText last tag ++ rest) =
      (scan true rest).cons ⟨String.ofList (tagText last tag), tagValue tag⟩ := by
  refine scan_token ?_
  have hread := simpleTest_tag tag hlast hrest
  obtain ⟨c, text, heq, hc⟩ := tagText_exists_head last tag
  obtain ⟨hblank, hsign, -, -⟩ := begins_facts hc
  rw [heq, List.cons_append] at hread ⊢
  rw [next_eq_simpleTest hblank hsign, hread]

/-- A pseudo-class with a group as its argument is read together with what its argument is read
with. -/
theorem scan_pseudo_group (name : PseudoName) (g : Group) (hrest : '\n' ∉ rest)
    (hscan : ∀ tail, Ending tail → '\n' ∉ tail → (scan false (g.text false ++ tail)).rest = tail) :
    scan afterToken (Filter.text last (.pseudo name (.group g)) ++ rest) =
      (scan true rest).cons ⟨String.ofList (Filter.text last (.pseudo name (.group g))),
        Filter.value (.pseudo name (.group g))⟩ := by
  obtain ⟨c, text, htext, -, hsingle, hdouble⟩ := g.exists_head false
  have hpassable := g.passable false
  have hbreak := g.noBreak false
  rw [htext] at hpassable hbreak
  have hname : simpleTest (':' :: spell false name.chars ++ ('(' :: c :: text ++ ')' :: rest)) =
      readPseudo name false (splitArgument ('(' :: c :: text ++ ')' :: rest)) :=
    simpleTest_pseudo name nofun (by rintro d ⟨⟩; decide)
  have hwritten : Filter.text last (.pseudo name (.group g)) =
      ':' :: spell false name.chars ++ '(' :: c :: text ++ [')'] := by
    simp [Filter.text, Inner.text, Inner.isAbsent, htext]
  obtain hplain | ⟨tail, after, hline, hmentions, hending, htail, hafter⟩ :=
    splitArgument_group hsingle hdouble hpassable hbreak hrest
  · refine Filter.scan_of_simpleTest ?_
    rw [hplain] at hname
    rw [hwritten]
    simpa [readPseudo, Filter.value, Inner.argument?, Inner.isQuoted, htext] using hname
  · have hnext : Lexeme.next afterToken (Filter.text last (.pseudo name (.group g)) ++ rest) =
        .nested (String.ofList name.chars) (':' :: spell false name.chars ++ ['('])
          (c :: text ++ tail) after := by
      rw [hline] at hname
      have happ : Filter.text last (.pseudo name (.group g)) ++ rest =
          ':' :: spell false name.chars ++ ('(' :: c :: text ++ ')' :: rest) := by
        simp [hwritten]
      rw [happ, List.cons_append, next_eq_simpleTest (by decide) (by decide), ← List.cons_append,
        hname, readPseudo, if_pos hmentions]
    have hstop := hscan tail hending htail
    rw [htext] at hstop
    rw [scan_nested hnext hstop hending, hafter, hwritten]
    simp [Filter.value, Inner.argument?, Inner.isQuoted, htext]

lemma filtersText_append_eq_nil {filters : List Filter} (hlast : last = true → rest = []) :
    (last && filters.isEmpty) = true → filtersText last filters ++ rest = [] := by
  intro h
  obtain ⟨h, hfilters⟩ := Bool.and_eq_true_iff.mp h
  rw [List.isEmpty_iff.mp hfilters, filtersText, hlast h, List.append_nil]

lemma scan_leadText (afterToken last : Bool) (lead : Option Lead) (r : Row) (rest : List Char) :
    scan afterToken (leadText lead ++ (r.text last ++ rest)) =
      (scan (afterToken || lead.isSome) (r.text last ++ rest)).prepend
        (lead.map Lead.token).toList := by
  cases lead with
  | none => simp [leadText]
  | some l =>
    obtain ⟨d, text, heq, hd⟩ := r.exists_head last
    rw [heq, List.cons_append, Option.isSome_some, Bool.or_true]
    exact scan_token (l.next_append hd (text ++ rest))

mutual

theorem Filter.scan_text (f : Filter) (afterToken last : Bool) {rest : List Char}
    (hlast : last = true → rest = []) (hrest : Boundary rest) (hbreak : '\n' ∉ rest) :
    scan afterToken (f.text last ++ rest) =
      (scan true rest).cons ⟨String.ofList (f.text last), f.value⟩ := by
  match f with
  | .id name => exact Filter.scan_of_simpleTest (simpleTest_id name hlast hrest)
  | .className name => exact Filter.scan_of_simpleTest (simpleTest_class name hlast hrest)
  | .attribute a => exact Filter.scan_of_simpleTest (simpleTest_attribute a rest)
  | .place p => exact Filter.scan_of_simpleTest (simpleTest_place p hrest)
  | .pseudo name .absent =>
    exact Filter.scan_of_simpleTest (simpleTest_pseudo_simple name nofun hlast hrest)
  | .pseudo name (.quoted q) =>
    exact Filter.scan_of_simpleTest (simpleTest_pseudo_simple name nofun hlast hrest)
  | .pseudo name (.bare t) =>
    exact Filter.scan_of_simpleTest (simpleTest_pseudo_simple name nofun hlast hrest)
  | .pseudo name (.group g) =>
    -- The argument is scanned with what is left of the line, so the group is read with any tail.
    exact scan_pseudo_group name g hbreak fun tail hending htail =>
      (g.scan_text false nofun hending htail).2.1

theorem scan_filtersText (filters : List Filter) (last : Bool) {rest : List Char}
    (hlast : last = true → rest = []) (hrest : Boundary rest) (hbreak : '\n' ∉ rest) :
    scan true (filtersText last filters ++ rest) =
      (scan true rest).prepend (filterTokens last filters) := by
  match filters with
  | [] => rfl
  | f :: filters =>
    have hmore := f.scan_text true (last && filters.isEmpty) (filtersText_append_eq_nil hlast)
      (filtersText_boundary_append hrest filters) (by simp [filtersText_noBreak, hbreak])
    rw [filtersText, List.append_assoc, hmore, scan_filtersText filters last hlast hrest hbreak]
    rfl

theorem Compound.scan_text (c : Compound) (afterToken last : Bool) {rest : List Char}
    (hlast : last = true → rest = []) (hrest : Boundary rest) (hbreak : '\n' ∉ rest) :
    scan afterToken (c.text last ++ rest) = (scan true rest).prepend (c.tokens last) := by
  match c with
  | .tagged tag filters =>
    have htag := scan_tagText afterToken tag (filtersText_append_eq_nil hlast)
      (filtersText_boundary_append hrest filters)
    rw [Compound.text, List.append_assoc, htag, scan_filtersText filters last hlast hrest hbreak]
    rfl
  | .untagged first filters =>
    have hfirst := first.scan_text afterToken (last && filters.isEmpty)
      (filtersText_append_eq_nil hlast) (filtersText_boundary_append hrest filters)
      (by simp [filtersText_noBreak, hbreak])
    rw [Compound.text, List.append_assoc, hfirst, scan_filtersText filters last hlast hrest hbreak]
    rfl

theorem Row.scan_text (r : Row) (afterToken last : Bool) {rest : List Char}
    (hlast : last = true → rest = []) (hrest : Boundary rest) (hbreak : '\n' ∉ rest) :
    scan afterToken (r.text last ++ rest) = (scan true rest).prepend (r.tokens last) := by
  match r with
  | .single c => exact c.scan_text afterToken last hlast hrest hbreak
  | .joined c j more =>
    have hc := c.scan_text afterToken false nofun (j.boundary_append (more.text last ++ rest))
      (by simp [j.harmless.noBreak, more.noBreak, hbreak])
    have hmore := more.scan_text true last hlast hrest hbreak
    obtain ⟨d, text, heq, hd⟩ := more.exists_head last
    have hj : scan true (j.text ++ (more.text last ++ rest)) =
        (scan true (more.text last ++ rest)).cons j.token := by
      rw [heq]
      exact scan_token (j.next_append hd (text ++ rest))
    rw [Row.text, List.append_assoc, List.append_assoc, hc, hj, hmore]
    simp [Row.tokens]

/-- The scan of a group gives its clauses and stops where the group ends. -/
theorem Group.scan_text (g : Group) (last : Bool) {tail : List Char}
    (hlast : last = true → tail = []) (hending : Ending tail) (hbreak : '\n' ∉ tail) :
    (scan false (g.text last ++ tail)).clauses = g.clauses last ∧
      (scan false (g.text last ++ tail)).rest = tail ∧
      (scan false (g.text last ++ tail)).fault = none := by
  match g with
  | .single lead r =>
    rw [Group.text, List.append_assoc, scan_leadText,
      r.scan_text _ last hlast hending.boundary hbreak, hending.scan_eq]
    simp [Scan.prepend, Scan.clauses, Group.clauses, clause]
  | .separated lead r comma rest =>
    obtain ⟨hclauses, hrest, hfault⟩ := rest.scan_text last hlast hending hbreak
    have hr := r.scan_text (false || lead.isSome) false nofun
      (comma.boundary_append (rest.text last ++ tail))
      (by simp [comma.harmless.noBreak, rest.noBreak, hbreak])
    obtain ⟨d, text, heq, hd, -⟩ := rest.exists_head last
    have hcomma : scan true (comma.text ++ (rest.text last ++ tail)) =
        (scan false (rest.text last ++ tail)).separated := by
      rw [heq]
      exact scan_separator (comma.next_append hd (text ++ tail))
    rw [Group.text, List.append_assoc, List.append_assoc, List.append_assoc, scan_leadText, hr,
      hcomma]
    refine ⟨?_, hrest, hfault⟩
    rw [Group.clauses, ← hclauses]
    simp [Scan.prepend, Scan.separated, Scan.clauses, clause]

end

end Groups

end Written

end TreeQuery
