import TreeQuery.Proofs.Selector.Margins

/-!
# Gaps between tokens

What a scan takes as a comma or a combinator is a gap of blanks and signs. A text that is read to
its end may stand behind a gap, also in front of the parenthesis that ends an argument: nothing at
its start ends an attribute test that began in front of the gap.
-/

namespace TreeQuery

open Written

variable {a : Bool} {b c d : Char} {x y t k gap more text : List Char}
  {item : Option TokenValue} {items : List (Option Token)}

section Openings

/-- A text that is read to its end starts with a blank, a sign, a test or a name. -/
theorem head_of_scan (h : (scan a (c :: x)).rest = []) :
    isBlank c = true ∨ c ∈ [',', '>', '+', '~', '*', '#', '.', '[', ':'] ∨
      continuesIdentifier c = true := by
  by_contra hother
  obtain ⟨hblank, hother⟩ := not_or.mp hother
  obtain ⟨hmark, hname⟩ := not_or.mp hother
  simp only [List.mem_cons, List.not_mem_nil, or_false, not_or] at hmark
  have hread : identifier? (c :: x) = none :=
    identifier?_eq_none (identifierUnit?_eq_none (Bool.eq_false_iff.mpr hname))
  have hnone : (Lexeme.next a (c :: x)).item? = none := by
    rw [next_eq_simpleTest (Bool.eq_false_iff.mpr hblank) (by simp [hmark]),
      simpleTest_other (by simp [hmark]), namedLexeme, hread]
    rfl
  cases (scan_of_none hnone).2.symm.trans h

lemma head_ne_of_scan (h : (scan a x).rest = [])
    (hd : d ∈ [')', ']', '=', '\'', '"', '!', '^', '$', '|']) : ∀ c ∈ x.head?, c ≠ d := by
  rintro c hc rfl
  obtain ⟨more, rfl⟩ := List.head?_eq_some_iff.mp hc
  have hhead := head_of_scan h
  simp only [List.mem_cons, List.not_mem_nil, or_false] at hd
  obtain rfl | rfl | rfl | rfl | rfl | rfl | rfl | rfl | rfl := hd <;>
    exact absurd hhead (by decide)

/-- Blanks may be left out in front of a text. -/
theorem exists_scan_dropBlanks (h : (scan a x).rest = []) :
    ∃ a', (scan a' (dropBlanks x)).rest = [] := by
  cases hdrop : dropBlanks x with
  | nil => exact ⟨a, by rw [scan_nil]; rfl⟩
  | cons c more =>
    obtain hsame | ⟨hitem, -⟩ := next_of_dropBlanks a hdrop
    · have hx : x ≠ [] := by
        rintro rfl
        cases hdrop
      exact ⟨a, scan_rest_congr hx h hsame⟩
    · exact ⟨true, (scan_rest_of_item hitem).symm.trans h⟩

/-- What is read behind a star or a tilde does not start with an equals sign. -/
theorem not_equals_of_scan (hc : c = '*' ∨ c = '~') (h : (scan a (c :: x)).rest = []) :
    ∀ d ∈ x.head?, d ≠ '=' := by
  obtain ⟨value, hitem⟩ : ∃ value,
      (Lexeme.next a (c :: x)).item? = some (some value, x) ∨
        (Lexeme.next a (c :: x)).item? = some (some value, dropBlanks x) := by
    obtain rfl | rfl := hc
    · exact ⟨.tag "*", .inl (by rw [next_eq_simpleTest (by decide) (by decide)]; rfl)⟩
    · refine ⟨.combinator .sibling, .inr ?_⟩
      have hdrop : dropBlanks ('~' :: x) = '~' :: x := rfl
      rw [next_of_cons hdrop, if_neg (by simp)]
      rfl
  rintro d hd rfl
  obtain ⟨more, rfl⟩ := List.head?_eq_some_iff.mp hd
  have hself : dropBlanks ('=' :: more) = '=' :: more := rfl
  rw [hself, or_self] at hitem
  rw [scan_rest_of_item hitem] at h
  exact head_ne_of_scan h (by decide) '=' rfl rfl

lemma attributeOperator?_next {found : AttributeOperator × List Char}
    (h : attributeOperator? (c :: text) = some found) (hc : c ≠ '=') : '=' ∈ text.head? := by
  unfold attributeOperator? at h
  split at h
  case h_1 heq => exact absurd (List.cons.inj heq).1 hc
  case h_8 => exact nomatch h
  all_goals
    rename_i heq
    rw [(List.cons.inj heq).2]
    rfl

/-- Behind a text that is read to its end no attribute operator comes about. -/
theorem attributeOperator?_append_of_scan (h : (scan a (c :: x)).rest = [])
    (ht : ∀ d ∈ t.head?, d ≠ '=') : attributeOperator? (c :: x ++ t) = none := by
  cases hfound : attributeOperator? (c :: x ++ t) with
  | none => rfl
  | some found =>
    have hmark := attributeOperator?_head hfound
    have hnot : ∀ d ∈ [')', ']', '=', '\'', '"', '!', '^', '$', '|'], c ≠ d := fun d hd =>
      head_ne_of_scan h hd c rfl
    have hequals : c ≠ '=' := hnot _ (by decide)
    have hc : c = '*' ∨ c = '~' := by
      simp only [List.mem_cons, List.not_mem_nil, or_false, forall_eq_or_imp, forall_eq]
        at hmark hnot
      obtain ⟨-, -, -, -, -, hbang, hcaret, hdollar, hbar⟩ := hnot
      simpa [hequals, hbang, hcaret, hdollar, hbar] using hmark
    have hnext : ∀ d ∈ (x ++ t).head?, d ≠ '=' := by
      cases x with
      | nil => exact ht
      | cons e x => exact fun d hd => not_equals_of_scan hc h d hd
    exact absurd rfl (hnext '=' (attributeOperator?_next hfound hequals))

/-- Whether a text has nothing but blanks in front of its end or a closing parenthesis. -/
def Closes (t : List Char) : Prop := Ending (dropBlanks t)

namespace Closes

variable (ht : Closes t)
include ht

lemma cases_head : t = [] ∨ (∃ more, t = ')' :: more) ∨
    ∃ c more, t = c :: more ∧ isBlank c = true ∧ Closes more := by
  cases t with
  | nil => exact .inl rfl
  | cons c more =>
    by_cases hc : isBlank c = true
    · have hdrop : dropBlanks (c :: more) = dropBlanks more := List.dropWhile_cons_of_pos hc
      rw [Closes, hdrop] at ht
      exact .inr (.inr ⟨c, more, rfl, hc, ht⟩)
    · have hself : dropBlanks (c :: more) = c :: more :=
        dropBlanks_eq_self (by rintro d ⟨⟩; simpa using hc)
      rw [Closes, hself] at ht
      obtain hnil | hclose := ht
      · cases hnil
      · exact .inr (.inl hclose)

lemma boundary : Boundary t := by
  obtain rfl | ⟨more, rfl⟩ | ⟨c, more, rfl, hc, -⟩ := ht.cases_head
  · exact boundary_nil
  · exact boundary_cons _ (by decide) (by decide)
  · exact boundary_blank hc more

lemma head_ne : ∀ d ∈ t.head?, d ≠ '=' := by
  obtain rfl | ⟨more, rfl⟩ | ⟨c, more, rfl, hc, -⟩ := ht.cases_head
  · exact nofun
  · rintro d ⟨⟩
    decide
  · rintro d ⟨⟩ rfl
    cases hc

lemma barren : Barren t := by
  rw [Barren, closeBracket?]
  obtain hnil | ⟨more, hclose⟩ := ht
  · rw [hnil]
    exact ⟨rfl, rfl⟩
  · rw [hclose]
    exact ⟨rfl, rfl⟩

lemma splitIdentifier_eq : splitIdentifier t = ([], t) :=
  splitIdentifier_stop ht.boundary.identifierUnit?_eq_none

end Closes

lemma barren_append_of_scan (h : (scan a x).rest = []) (ht : Closes t) : Barren (x ++ t) := by
  cases hdrop : dropBlanks x with
  | nil =>
    have hbarren := ht.barren
    rw [Barren, closeBracket?] at hbarren ⊢
    rwa [dropBlanks_append_of_nil hdrop]
  | cons c more =>
    obtain ⟨a', h'⟩ := exists_scan_dropBlanks h
    rw [hdrop] at h'
    rw [Barren, closeBracket?, dropBlanks_append_of_cons hdrop]
    refine ⟨?_, attributeOperator?_append_of_scan h' ht.head_ne⟩
    rw [List.cons_append]
    split
    · rename_i heq
      exact absurd (List.cons.inj heq).1 (head_ne_of_scan h' (by decide) c rfl)
    · rfl

/-- What stands behind the name at the start of a text is read to its end with the text. -/
theorem scan_of_splitIdentifier (h : (scan a x).rest = []) {name : List Char}
    (hname : splitIdentifier x = (name, y)) : ∃ a', (scan a' y).rest = [] := by
  have happ := splitIdentifier_append x
  rw [hname] at happ
  cases name with
  | nil =>
    obtain rfl : y = x := happ
    exact ⟨a, h⟩
  | cons c name =>
    subst happ
    have hread : identifier? (c :: (name ++ y)) = some (c :: name, y) := by
      rw [identifier?, show splitIdentifier (c :: (name ++ y)) = (c :: name, y) from hname]
    have hc := continuesIdentifier_of_identifier? hread
    have hmark : c ∉ [',', '>', '+', '~', '*', '#', '.', '[', ':'] := by
      intro hmem
      simp only [List.mem_cons, List.not_mem_nil, or_false] at hmem
      obtain rfl | rfl | rfl | rfl | rfl | rfl | rfl | rfl | rfl := hmem <;>
        exact absurd hc (by decide)
    simp only [List.mem_cons, List.not_mem_nil, or_false, not_or] at hmark
    have hitem : (Lexeme.next a (c :: (name ++ y))).item? =
        some (some (.tag (String.ofList (unescape (c :: name)))), y) := by
      rw [next_eq_simpleTest (isBlank_of_continuesIdentifier hc) (by simp [hmark]),
        simpleTest_other (by simp [hmark]), namedLexeme, hread]
      rfl
    exact ⟨true, (scan_rest_of_item hitem).symm.trans h⟩

/-- A text that is read to its end may stand behind a gap. -/
theorem opens_append_of_scan (hne : x ≠ []) (hx : dropBlanks x = x) (h : (scan a x).rest = [])
    (ht : Closes t) : Opens (x ++ t) := by
  refine ⟨?_, barren_append_of_scan h ht, ?_⟩
  · obtain ⟨c, x, rfl⟩ := List.exists_cons_of_ne_nil hne
    rintro d ⟨⟩
    refine ⟨isBlank_of_dropBlanks hx c rfl, fun hd => ?_⟩
    refine head_ne_of_scan h ?_ c rfl rfl
    simp only [List.mem_cons, List.not_mem_nil, or_false] at hd ⊢
    tauto
  · obtain ⟨name, rest, rfl, hrest, hname⟩ | ⟨-, hopen⟩ :=
      splitIdentifier_append_tail (settled_of_scan h)
    · rw [hname t ht.boundary]
      have hplain := hname [] boundary_nil
      rw [List.append_nil, List.append_nil] at hplain
      obtain ⟨a', hscan⟩ := scan_of_splitIdentifier h hplain
      exact barren_append_of_scan hscan ht
    · rw [hopen t ht.boundary]
      obtain rfl | ⟨more, rfl⟩ | ⟨c, more, rfl, hc, hmore⟩ := ht.cases_head
      · rw [afterBlank, splitIdentifier_nil]
        exact barren_nil
      · rw [show afterBlank (')' :: more) = ')' :: more from rfl, ht.splitIdentifier_eq]
        exact ht.barren
      · have hafter : afterBlank (c :: more) = more := if_pos hc
        rw [hafter, hmore.splitIdentifier_eq]
        exact hmore.barren

end Openings

section Gaps

/-- Whether the scan of a text takes `gap` as a comma or a combinator, behind the text `x` of
`items` and in front of `y`. -/
structure TakesGap (x gap y : List Char) (items : List (Option Token)) (item : Option TokenValue)
    (a : Bool) : Prop where
  crosses : Crosses false x (gap ++ y) items a
  taken : (Lexeme.next a (gap ++ y)).item? = some (item, y)
  joint : ∀ value, item = some value → ∃ k, value = .combinator k

variable (hjoint : ∀ value, item = some value → ∃ k, value = .combinator k)
include hjoint

lemma simpleTest_ne_joint : (simpleTest x).item? ≠ some (item, y) := by
  intro h
  obtain ⟨value, rfl, hstart⟩ := simpleTest_start h
  obtain ⟨k, rfl⟩ := hjoint value rfl
  cases hstart

/-- What is taken as a comma or a combinator is a gap, and no blank stands behind it. -/
theorem isGap_of_taken (h : (Lexeme.next a (gap ++ y)).item? = some (item, y)) :
    IsGap gap ∧ gap ≠ [] ∧ dropBlanks y = y := by
  have hne : gap ≠ [] := by
    obtain ⟨raw, htext, hraw, -⟩ := Lexeme.next_raw h
    rw [← List.nil_append y] at htext
    exact ne_nil_of_taken htext hraw
  have hgap : ∀ {k : List Char}, IsGap k → gap ++ y = k ++ y → IsGap gap := fun hk heq =>
    List.append_cancel_right heq ▸ hk
  have hsplit : ∀ text : List Char, text = text.takeWhile isBlank ++ dropBlanks text := fun text =>
    List.takeWhile_append_dropWhile.symm
  have hblanks : ∀ text : List Char, IsGap (text.takeWhile isBlank) := fun text c hc =>
    .inl (List.mem_takeWhile_imp hc)
  have htext := hsplit (gap ++ y)
  cases hdrop : dropBlanks (gap ++ y) with
  | nil =>
    rw [next_of_nil hdrop (by simp [hne])] at h
    obtain ⟨-, rfl⟩ := Prod.mk.inj (Option.some.inj h)
    rw [hdrop] at htext
    exact ⟨hgap (hblanks _) htext, hne, rfl⟩
  | cons c more =>
    rw [hdrop] at htext
    have hsigned : c ∈ [',', '>', '+', '~'] → dropBlanks more = y →
        IsGap gap ∧ gap ≠ [] ∧ dropBlanks y = y := by
      rintro hc rfl
      refine ⟨hgap (k := (gap ++ dropBlanks more).takeWhile isBlank ++ c :: more.takeWhile isBlank)
        ?_ ?_, hne, dropBlanks_dropBlanks more⟩
      · intro d hd
        obtain hd | hd := List.mem_append.mp hd
        · exact hblanks _ d hd
        · obtain rfl | hd := List.mem_cons.mp hd
          · exact .inr hc
          · exact hblanks _ d hd
      · rw [List.append_assoc, List.cons_append, ← hsplit more]
        exact htext
    rw [next_of_cons hdrop] at h
    by_cases hcomma : a = true ∧ c = ','
    · rw [if_pos hcomma] at h
      exact hsigned (by simp [hcomma.2]) (Prod.mk.inj (Lexeme.separation_item? h)).2.symm
    · rw [if_neg hcomma] at h
      cases hsign : signOf? c with
      | some k =>
        rw [hsign] at h
        exact hsigned (mem_of_signOf? hsign) (Prod.mk.inj (Option.some.inj h)).2
      | none =>
        rw [hsign] at h
        dsimp only at h
        split at h
        · obtain ⟨-, rfl⟩ := Prod.mk.inj (Option.some.inj h)
          exact ⟨hgap (hblanks _) htext, hne, hdrop ▸ dropBlanks_dropBlanks _⟩
        · exact absurd h (simpleTest_ne_joint hjoint)

omit hjoint in
/-- Blanks are left out in front of a text, whatever blanks they are. -/
theorem dropBlanks_respaced (hb : isBlank b = true) (hd : isBlank d = true)
    (h : dropBlanks (x ++ b :: (k ++ y)) = y) : dropBlanks (x ++ d :: (k ++ y)) = y := by
  have hskip : ∀ {e : Char}, isBlank e = true → dropBlanks (e :: (k ++ y)) = dropBlanks (k ++ y) :=
    fun he => List.dropWhile_cons_of_pos he
  cases hdrop : dropBlanks x with
  | nil =>
    rw [dropBlanks_append_of_nil hdrop, hskip hb] at h
    rwa [dropBlanks_append_of_nil hdrop, hskip hd]
  | cons c more =>
    rw [dropBlanks_append_of_cons hdrop] at h
    have hlength := congrArg List.length h
    simp only [List.length_append, List.length_cons] at hlength
    omega

omit hjoint in
/-- What is read behind blanks does not depend on which ones they are. -/
theorem next_respaced (hk : dropBlanks k = []) (hb : isBlank b = true) (hd : isBlank d = true) :
    (Lexeme.next a (k ++ d :: y)).item? = (Lexeme.next a (k ++ b :: y)).item? := by
  have hsame : ∀ {e : Char}, isBlank e = true → dropBlanks (k ++ e :: y) = dropBlanks y := by
    intro e he
    rw [dropBlanks_append_of_nil hk]
    exact List.dropWhile_cons_of_pos he
  cases hrest : dropBlanks y with
  | nil =>
    rw [next_of_nil ((hsame hb).trans hrest) (by simp),
      next_of_nil ((hsame hd).trans hrest) (by simp)]
  | cons c more =>
    have hshort : ∀ e : Char, (c :: more).length < (k ++ e :: y).length := by
      intro e
      have hle := (dropBlanks_suffix y).length_le
      rw [hrest] at hle
      simp only [List.length_append, List.length_cons] at hle ⊢
      omega
    rw [next_of_cons ((hsame hb).trans hrest), next_of_cons ((hsame hd).trans hrest),
      if_pos (hshort b), if_pos (hshort d)]

/-- A gap is taken whatever blanks it has. -/
theorem taken_respaced (hb : isBlank b = true) (hd : isBlank d = true) {k' : List Char}
    (h : (Lexeme.next a (k ++ b :: (k' ++ y))).item? = some (item, y)) :
    (Lexeme.next a (k ++ d :: (k' ++ y))).item? = some (item, y) := by
  cases hdrop : dropBlanks k with
  | nil => rwa [next_respaced hdrop hb hd]
  | cons c more =>
    -- Only a comma or a sign is taken together with what stands behind it.
    have hcons : ∀ t, dropBlanks (k ++ t) = c :: (more ++ t) := fun t =>
      dropBlanks_append_of_cons hdrop
    rw [next_of_cons (hcons _)] at h ⊢
    by_cases hcomma : a = true ∧ c = ','
    · rw [if_pos hcomma] at h ⊢
      obtain ⟨rfl, hy⟩ := Prod.mk.inj (Lexeme.separation_item? h)
      rw [hy.symm] at h
      rw [dropBlanks_respaced hb hd hy.symm]
      exact h
    · rw [if_neg hcomma] at h ⊢
      cases hsign : signOf? c with
      | some sign =>
        rw [hsign] at h
        obtain ⟨rfl, hy⟩ := Prod.mk.inj (Option.some.inj h)
        dsimp only
        rw [dropBlanks_respaced hb hd hy]
        rfl
      | none =>
        rw [hsign] at h
        dsimp only at h
        split at h
        · have hlength := congrArg List.length (Prod.mk.inj (Option.some.inj h)).2
          simp only [List.length_append, List.length_cons] at hlength
          omega
        · exact absurd h (simpleTest_ne_joint hjoint)

end Gaps

end TreeQuery
