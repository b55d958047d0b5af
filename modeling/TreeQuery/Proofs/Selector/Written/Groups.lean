import TreeQuery.Proofs.Selector.Written.Arguments

/-!
# The texts of written groups

How the text of a written selector begins and ends, and that it may be the argument of a
pseudo-class: it has no line feed, and it is either passed over or opens an argument of its own.
-/

namespace TreeQuery

namespace Written

/-- Whether a compound may begin with a character. -/
def begins (c : Char) : Bool := continuesIdentifier c || ['*', '#', '.', '[', ':'].contains c

lemma begins_facts {c : Char} (h : begins c = true) :
    isBlank c = false ∧ c ∉ [',', '>', '+', '~'] ∧ c ≠ '\'' ∧ c ≠ '"' := by
  have hquote : c ∉ ['\'', '"'] := not_mem_of_class (by decide) h
  simp only [List.mem_cons, List.not_mem_nil, or_false, not_or] at hquote
  exact ⟨isBlank_eq_false (by decide) h, not_mem_of_class (by decide) h, hquote⟩

lemma Filter.exists_head (last : Bool) (f : Filter) :
    ∃ c text, f.text last = c :: text ∧ c ∈ ['#', '.', '[', ':'] := by
  match f with
  | .id _ => exact ⟨'#', _, rfl, by decide⟩
  | .className _ => exact ⟨'.', _, rfl, by decide⟩
  | .attribute _ => exact ⟨'[', _, rfl, by decide⟩
  | .place p => exact ⟨':', p.text.tail, by cases p <;> rfl, by decide⟩
  | .pseudo _ _ => exact ⟨':', _, rfl, by decide⟩

/-- A pseudo-class is written as its name, or as its name and a text in parentheses. -/
theorem PseudoName.text_cases (name : PseudoName) (argument : Inner) :
    (∀ last, Filter.text last (.pseudo name argument) = ':' :: spell last name.chars) ∨
      ∃ body, ∀ last, Filter.text last (.pseudo name argument) =
        ':' :: spell false name.chars ++ '(' :: body ++ [')'] := by
  cases argument with
  | absent => exact .inl fun last => by simp [Filter.text, Inner.text, Inner.isAbsent]
  | quoted q => exact .inr ⟨q.text, fun last => by simp [Filter.text, Inner.text, Inner.isAbsent]⟩
  | bare t => exact .inr ⟨t.chars, fun last => by simp [Filter.text, Inner.text, Inner.isAbsent]⟩
  | group g =>
    exact .inr ⟨g.text false, fun last => by simp [Filter.text, Inner.text, Inner.isAbsent]⟩

lemma tagText_exists_head (last : Bool) (tag : Option Name) :
    ∃ c text, tagText last tag = c :: text ∧ begins c = true := by
  cases tag with
  | none => exact ⟨'*', [], rfl, by decide⟩
  | some name =>
    obtain ⟨c, text, heq, hc⟩ := exists_spell_head last name.noNul name.nonempty
    exact ⟨c, text, heq, by rw [begins, hc, Bool.true_or]⟩

lemma Compound.exists_head (last : Bool) (c : Compound) :
    ∃ d text, c.text last = d :: text ∧ begins d = true := by
  cases c with
  | tagged tag filters =>
    obtain ⟨d, text, heq, hd⟩ := tagText_exists_head (last && filters.isEmpty) tag
    exact ⟨d, _, by rw [Compound.text, heq]; rfl, hd⟩
  | untagged first filters =>
    obtain ⟨d, text, heq, hd⟩ := first.exists_head (last && filters.isEmpty)
    refine ⟨d, _, by rw [Compound.text, heq]; rfl, ?_⟩
    simp only [List.mem_cons, List.not_mem_nil, or_false] at hd
    obtain rfl | rfl | rfl | rfl := hd <;> decide

lemma Row.exists_head (last : Bool) (r : Row) :
    ∃ d text, r.text last = d :: text ∧ begins d = true := by
  cases r with
  | single c => exact c.exists_head last
  | joined c j rest =>
    obtain ⟨d, text, heq, hd⟩ := c.exists_head false
    exact ⟨d, _, by rw [Row.text, heq]; rfl, hd⟩

lemma clauseText_exists_head (last : Bool) (lead : Option Lead) (r : Row) :
    ∃ d text, leadText lead ++ r.text last = d :: text ∧ isBlank d = false ∧ d ≠ '\'' ∧
      d ≠ '"' := by
  cases lead with
  | none =>
    obtain ⟨d, text, heq, hd⟩ := r.exists_head last
    obtain ⟨hblank, -, hsingle, hdouble⟩ := begins_facts hd
    exact ⟨d, text, heq, hblank, hsingle, hdouble⟩
  | some l =>
    refine ⟨l.sign.char, l.after.chars ++ r.text last, rfl, ?_⟩
    cases l.sign <;> decide

/-- A group begins neither with a blank nor with a quote. -/
theorem Group.exists_head (last : Bool) (g : Group) :
    ∃ d text, g.text last = d :: text ∧ isBlank d = false ∧ d ≠ '\'' ∧ d ≠ '"' := by
  cases g with
  | single lead r => exact clauseText_exists_head last lead r
  | separated lead r comma rest =>
    obtain ⟨d, text, heq, hd⟩ := clauseText_exists_head false lead r
    exact ⟨d, _, by rw [Group.text, heq]; rfl, hd⟩

lemma boundary_of_blank {c : Char} (hc : isBlank c = true) (rest : List Char) :
    Boundary (c :: rest) := by
  refine boundary_cons rest (Bool.eq_false_iff.mpr fun h => ?_) ?_
  · exact absurd hc (by simp [isBlank_of_continuesIdentifier h])
  · rintro rfl
    exact absurd hc (by decide)

lemma Blanks.boundary_append (b : Blanks) {rest : List Char} (h : Boundary rest) :
    Boundary (b.chars ++ rest) := by
  cases hchars : b.chars with
  | nil => exact h
  | cons c chars => exact boundary_of_blank (b.blank c (by simp [hchars])).1 _

lemma Joint.boundary_append (j : Joint) (rest : List Char) : Boundary (j.text ++ rest) := by
  cases j with
  | blanks gap hne =>
    obtain ⟨c, chars, hchars⟩ := List.exists_cons_of_ne_nil hne
    rw [Joint.text, hchars]
    exact boundary_of_blank (gap.blank c (by simp [hchars])).1 _
  | sign before s after =>
    rw [Joint.text, List.append_assoc]
    exact before.boundary_append (by cases s <;> exact boundary_cons _ (by decide) (by decide))

lemma Comma.boundary_append (c : Comma) (rest : List Char) : Boundary (c.text ++ rest) := by
  rw [Comma.text, List.append_assoc]
  exact c.before.boundary_append (boundary_cons _ (by decide) (by decide))

lemma filtersText_boundary_append {last : Bool} {rest : List Char} (h : Boundary rest)
    (filters : List Filter) : Boundary (filtersText last filters ++ rest) := by
  cases filters with
  | nil => exact h
  | cons f filters =>
    obtain ⟨c, text, heq, hc⟩ := f.exists_head (last && filters.isEmpty)
    rw [filtersText, heq]
    simp only [List.mem_cons, List.not_mem_nil, or_false] at hc
    obtain rfl | rfl | rfl | rfl := hc <;> exact boundary_cons _ (by decide) (by decide)

section Harmless

lemma Sign.harmless (s : Sign) : Harmless [s.char] := by
  cases s <;> exact .ordinary (by decide) .nil

lemma Joint.harmless (j : Joint) : Harmless j.text := by
  cases j with
  | blanks gap _ => exact gap.harmless
  | sign before s after => exact before.harmless.append (s.harmless.append after.harmless)

lemma Comma.harmless (c : Comma) : Harmless c.text :=
  c.before.harmless.append (.ordinary (by decide) c.after.harmless)

lemma leadText_harmless (lead : Option Lead) : Harmless (leadText lead) := by
  cases lead with
  | none => exact .nil
  | some l => exact l.sign.harmless.append l.after.harmless

lemma tagText_harmless (last : Bool) (tag : Option Name) : Harmless (tagText last tag) := by
  cases tag with
  | none => exact .ordinary (by decide) .nil
  | some name => exact harmless_spell last name.noNul

lemma harmless_of_isDigit {digits : List Char} (h : ∀ c ∈ digits, c.isDigit = true) :
    Harmless digits :=
  harmless_of_class (by decide) h

lemma Mark.harmless (m : Mark) : Harmless m.text := by
  cases m with
  | none => exact .nil
  | plus => exact .ordinary (by decide) .nil
  | minus => exact .ordinary (by decide) .nil

lemma Count.harmless (c : Count) : Harmless c.text := by
  have hletters : ∀ letters : List Char, letters.all isWordChar = true → Harmless letters :=
    fun _ h => harmless_of_class (by decide) (List.all_eq_true.mp h)
  cases c with
  | even => exact hletters _ (by decide)
  | odd => exact hletters _ (by decide)
  | linear step offset =>
    refine .append ?_ ?_
    · cases step with
      | none => exact .nil
      | some s =>
        exact (s.mark.harmless.append (harmless_of_isDigit s.isDigit_digits)).append
          (.ordinary (by decide) .nil)
    · cases offset with
      | none => exact .nil
      | some o => exact o.mark.harmless.append (harmless_of_isDigit isDigit_toDigits)

lemma keyword_harmless (position : Position) (ofType : Bool) :
    Harmless (keyword position ++ kind ofType) :=
  harmless_of_class (by decide) (keyword_letters position ofType)

end Harmless

section Passable

lemma Attribute.passes (a : Attribute) : Passes a.text := by
  intro rest
  have happ : a.text ++ rest =
      '[' :: (spell false a.name.chars ++ comparisonText a.comparison ++ rest) := rfl
  have hread := attributeTest?_text a rest
  have hbefore : before (a.text ++ rest) rest = a.text := by simp [before]
  rw [happ] at hread hbefore ⊢
  rw [splitPlain]
  split
  · rename_i found heq
    obtain ⟨rfl, rfl⟩ := Prod.mk.inj (Option.some.inj (hread.symm.trans heq))
    rw [hbefore]
  · rename_i heq
    cases hread.symm.trans heq

lemma Place.passable (p : Place) : Passable p.text := by
  cases p with
  | plain position _ ofType =>
    exact .inl (Harmless.ordinary (by decide) (keyword_harmless position ofType)).passes
  | counted fromEnd ofType count =>
    have hopens := opens_of_harmless (keyword_harmless (counting fromEnd) ofType)
      (fun rest => by cases fromEnd <;> rfl) (count.text ++ [')'])
    exact .inr (by simpa [Place.text] using hopens)

/-- A pseudo-class is passed over if it has no argument, and opens one otherwise. -/
theorem PseudoName.passable (name : PseudoName) (last : Bool) (argument : Inner) :
    Passable (Filter.text last (.pseudo name argument)) := by
  obtain htext | ⟨body, htext⟩ := name.text_cases argument
  · rw [htext]
    exact .inl (Harmless.ordinary (by decide) (harmless_spell last name.noNul)).passes
  · have hopens : Opens (':' :: spell false name.chars ++ '(' :: (body ++ [')'])) := by
      refine opens_of_harmless (harmless_spell false name.noNul) (fun rest => ?_) _
      obtain ⟨c, chars, hchars⟩ := List.exists_cons_of_ne_nil name.nonempty
      have hc : c ≠ '\x00' := fun h => name.noNul (by simp [hchars, h])
      rw [hchars, spell, List.append_assoc, identifierUnit?_escapeChar hc (by simp)]
      rfl
    rw [htext]
    exact .inr (by simpa using hopens)

lemma Filter.passable (last : Bool) : ∀ f : Filter, Passable (f.text last)
  | .id name => .inl (Harmless.ordinary (by decide) (harmless_spell last name.noNul)).passes
  | .className name => .inl (Harmless.ordinary (by decide) (harmless_spell last name.noNul)).passes
  | .attribute a => .inl a.passes
  | .place p => p.passable
  | .pseudo name argument => name.passable last argument

lemma filtersText_passable (last : Bool) (filters : List Filter) :
    Passable (filtersText last filters) := by
  induction filters with
  | nil => exact .inl Harmless.nil.passes
  | cons f filters ih => exact (f.passable _).append ih

lemma Compound.passable (last : Bool) (c : Compound) : Passable (c.text last) := by
  cases c with
  | tagged tag filters =>
    exact .append (.inl (tagText_harmless _ tag).passes) (filtersText_passable last filters)
  | untagged first filters =>
    exact (first.passable _).append (filtersText_passable last filters)

lemma Row.passable (last : Bool) : ∀ r : Row, Passable (r.text last)
  | .single c => c.passable last
  | .joined c j rest =>
    ((c.passable false).append (.inl j.harmless.passes)).append (rest.passable last)

lemma Group.passable (last : Bool) : ∀ g : Group, Passable (g.text last)
  | .single lead r => .append (.inl (leadText_harmless lead).passes) (r.passable last)
  | .separated lead r comma rest =>
    ((Passable.append (.inl (leadText_harmless lead).passes) (r.passable false)).append
      (.inl comma.harmless.passes)).append (rest.passable last)

end Passable

section NoBreak

lemma Attribute.noBreak (a : Attribute) : '\n' ∉ a.text := by
  have hname := (harmless_spell false a.name.noNul).noBreak
  rw [Attribute.text]
  cases a.comparison with
  | none => simp [comparisonText, hname]
  | some compared =>
    obtain ⟨operator, value⟩ := compared
    have hvalue := (harmless_spell false value.noNul).noBreak
    have hoperator : '\n' ∉ operator.symbol.toList := by cases operator <;> decide
    simp [comparisonText, hname, hvalue, hoperator]

lemma Place.noBreak (p : Place) : '\n' ∉ p.text := by
  cases p with
  | plain position _ ofType =>
    exact (Harmless.ordinary (by decide) (keyword_harmless position ofType)).noBreak
  | counted fromEnd ofType count =>
    have hkeyword := (keyword_harmless (counting fromEnd) ofType).noBreak
    rw [List.mem_append, not_or] at hkeyword
    simp [Place.text, hkeyword, count.harmless.noBreak]

lemma Quoted.noBreak (q : Quoted) : '\n' ∉ q.text := by
  have hbody : ∀ {quote : Char} {body : List Char}, quotable quote body = true → '\n' ∉ body := by
    intro quote body h
    fun_induction quotable quote body with
    | case1 => simp
    | case2 => cases h
    | case3 c body ih =>
      simp only [Bool.and_eq_true, bne_iff_ne] at h
      simpa [h.1.symm] using ih h.2
    | case4 c body _ _ ih =>
      simp only [Bool.and_eq_true, bne_iff_ne] at h
      simpa [h.1.2.symm] using ih h.2
  have hquote : q.quote ≠ '\n' := by
    obtain h | h := q.isQuote <;> rw [h] <;> decide
  simp [Quoted.text, hbody q.isQuotable, hquote.symm]

mutual

theorem Filter.noBreak (last : Bool) : ∀ f : Filter, '\n' ∉ f.text last
  | .id name => (Harmless.ordinary (by decide) (harmless_spell last name.noNul)).noBreak
  | .className name => (Harmless.ordinary (by decide) (harmless_spell last name.noNul)).noBreak
  | .attribute a => a.noBreak
  | .place p => p.noBreak
  | .pseudo name argument => by
    have hname := (harmless_spell (last && argument.isAbsent) name.noNul).noBreak
    simp [Filter.text, hname, argument.noBreak]

theorem Inner.noBreak : ∀ argument : Inner, '\n' ∉ argument.text
  | .absent => by simp [Inner.text]
  | .quoted q => by simp [Inner.text, q.noBreak]
  | .bare t => by simp [Inner.text, (harmless_of_ordinary t.bare).noBreak]
  | .group g => by simp [Inner.text, g.noBreak false]

theorem filtersText_noBreak (last : Bool) : ∀ filters : List Filter, '\n' ∉ filtersText last filters
  | [] => by simp [filtersText]
  | f :: filters => by simp [filtersText, f.noBreak, filtersText_noBreak last filters]

theorem Compound.noBreak (last : Bool) : ∀ c : Compound, '\n' ∉ c.text last
  | .tagged tag filters => by
    simp [Compound.text, (tagText_harmless _ tag).noBreak, filtersText_noBreak last filters]
  | .untagged first filters => by
    simp [Compound.text, first.noBreak, filtersText_noBreak last filters]

theorem Row.noBreak (last : Bool) : ∀ r : Row, '\n' ∉ r.text last
  | .single c => c.noBreak last
  | .joined c j rest => by
    simp [Row.text, c.noBreak false, j.harmless.noBreak, rest.noBreak last]

theorem Group.noBreak (last : Bool) : ∀ g : Group, '\n' ∉ g.text last
  | .single lead r => by simp [Group.text, (leadText_harmless lead).noBreak, r.noBreak last]
  | .separated lead r comma rest => by
    simp [Group.text, (leadText_harmless lead).noBreak, r.noBreak false, comma.harmless.noBreak,
      rest.noBreak last]

end

end NoBreak

end Written

end TreeQuery
