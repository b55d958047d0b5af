import TreeQuery.Proofs.Selector.Tails.Gaps

/-!
# Reading a normalised group again

The text of a group has one comma and one space between two clauses, whatever stood there. It is
read as the same clauses, if no separator ended the line of a call with nested parentheses: the
argument of such a call is taken up to the last parenthesis of its line.
-/

namespace TreeQuery

open Written

variable {a : Bool} {x y gap text : List Char} {items items' : List (Option Token)}

section Clauses

/-- The first clause of a scan is followed by a comma, or by what the scan leaves over. -/
theorem scan_clause (hne : (scan false text).first ≠ []) :
    ∃ rest, text = (scan false text).first.chars ++ rest ∧
      Crosses false (scan false text).first.chars rest ((scan false text).first.map some) true ∧
        ((scan false text).later = [] ∧ (scan false text).rest = rest ∨
          ∃ y, (Lexeme.next true rest).item? = some (none, y) ∧
            (scan false text).later = (scan false y).clauses ∧
              (scan false text).rest = (scan false y).rest) := by
  have hfirst : (scan false text).first = (scan false text).first ++ [] :=
    (List.append_nil _).symm
  obtain ⟨rest, htext, hcrosses⟩ := Crosses.of_first hfirst
  have hflag : (false || !(scan false text).first.isEmpty) = true := by simpa using hne
  rw [hflag] at hcrosses
  have hscan := hcrosses.scan
  rw [← htext, Scan.after_tokens] at hscan
  have hnil : (scan true rest).first = [] := by
    have hlength := congrArg (fun s => s.first.length) hscan
    simp only [Scan.prepend, List.length_append] at hlength
    exact List.length_eq_zero_iff.mp (by omega)
  have hlater : (scan false text).later = (scan true rest).later := by rw [hscan]; rfl
  have hrest : (scan false text).rest = (scan true rest).rest := by rw [hscan]; rfl
  refine ⟨rest, htext, hcrosses, ?_⟩
  rw [hlater, hrest]
  cases hitem : (Lexeme.next true rest).item? with
  | none =>
    obtain ⟨hclauses, hrest⟩ := scan_of_none hitem
    exact .inl ⟨(List.cons.inj hclauses).2, hrest⟩
  | some found =>
    obtain ⟨item, y⟩ := found
    cases item with
    | none =>
      rw [scan_of_comma hitem]
      exact .inr ⟨y, rfl, rfl, rfl⟩
    | some value =>
      rw [scan_of_token hitem] at hnil
      cases hnil

/-- The texts of clauses with one comma and one space between them. -/
def rejoined (clauses : List Clause) : List Char :=
  [',', ' '].intercalate (clauses.map Clause.chars)

lemma rejoined_cons {clauses : List Clause} (h : clauses ≠ []) (clause : Clause) :
    rejoined (clause :: clauses) = clause.chars ++ ([',', ' '] ++ rejoined clauses) := by
  rw [rejoined, List.map_cons, List.intercalate_cons_of_ne_nil (by simpa using h),
    List.append_assoc]
  rfl

lemma SelectorList.toList_display (list : SelectorList) :
    list.display.toList = rejoined list.clauses := by
  rw [SelectorList.display, String.toList_intercalate, rejoined, List.map_map]
  congr 1
  exact List.map_congr_left fun clause _ => Clause.toList_text clause

lemma next_comma (hne : y ≠ []) (hy : dropBlanks y = y) :
    (Lexeme.next true ([',', ' '] ++ y)).item? = some (none, y) := by
  have hdrop : dropBlanks ([',', ' '] ++ y) = ',' :: ' ' :: y := rfl
  have hrest : dropBlanks (' ' :: y) = y := hy
  rw [next_of_cons hdrop, if_pos ⟨rfl, rfl⟩, hrest]
  obtain ⟨c, y, rfl⟩ := List.exists_cons_of_ne_nil hne
  rfl

/-- A comma with other blanks around it may stand for the one behind some tokens, where calls with
nested parentheses cannot reach further. -/
theorem crosses_rejoined (h : Crosses false x (gap ++ y) items true)
    (hcomma : (Lexeme.next true (gap ++ y)).item? = some (none, y)) (hy : (scan false y).rest = [])
    (hline : '\n' ∈ gap → ∀ t, some t ∈ items → t.value.Unnested) :
    Crosses false (x ++ [',', ' ']) y (items ++ [none]) false := by
  have hjoint : ∀ value, (none : Option TokenValue) = some value →
      ∃ k, value = .combinator k := nofun
  obtain ⟨hgap, hne, hdrop⟩ := isGap_of_taken hjoint hcomma
  obtain ⟨⟨gap', ⟨before, after, rfl, hblanks⟩, htext⟩, hrest, -⟩ := Lexeme.next_separator hcomma
  obtain rfl := List.append_cancel_right htext
  have hopens : Opens y := by
    have hopens := opens_append_of_scan hrest hdrop hy (t := []) (.inl rfl)
    rwa [List.append_nil] at hopens
  have hspaced : IsGap [',', ' '] := by
    intro c hc
    simp only [List.mem_cons, List.not_mem_nil, or_false] at hc
    obtain rfl | rfl := hc
    · exact .inr (by decide)
    · exact .inl (by decide)
  have halike : Alike (before ++ ',' :: after ++ y) ([',', ' '] ++ y) := by
    cases before with
    | nil => exact .inl rfl
    | cons b before => exact .inr (.inr ⟨b, rfl, hblanks b List.mem_cons_self⟩)
  have hbreak : (y ≠ [] → ('\n' ∈ [',', ' '] ↔ '\n' ∈ before ++ ',' :: after)) ∨
      ∀ t, some t ∈ items → t.value.Unnested := by
    by_cases hmem : '\n' ∈ before ++ ',' :: after
    · exact .inr (hline hmem)
    · exact .inl fun _ => iff_of_false (by decide) hmem
  have hswap := Crosses.swap (z := []) h .nil (hgap.piece hne hopens)
    (hspaced.piece (by simp) hopens) hne nofun (fun _ => ⟨rfl, halike⟩) hbreak
  rw [List.nil_append] at hswap
  exact hswap.trans (.single (next_comma hrest hdrop))

/-- Whether no call with nested parentheses stands in front of a comma that ends a line, where
`text` is read behind `items`. -/
def Rejoinable (text : List Char) (items : List (Option Token)) : Prop :=
  ∀ x gap y items', TakesGap x gap y items' none true → text = x ++ (gap ++ y) →
    '\n' ∈ gap → ∀ t, some t ∈ items ++ items' → t.value.Unnested

lemma Rejoinable.of_crosses {y : List Char} (h : Rejoinable (x ++ y) items)
    (hx : Crosses false x y items' false) : Rejoinable y (items ++ items') := by
  rintro x' gap y' items₁ htakes rfl hbreak t ht
  refine h (x ++ x') gap y' (items' ++ items₁) ⟨hx.trans htakes.crosses, htakes.taken, nofun⟩
    (List.append_assoc _ _ _).symm hbreak t ?_
  rwa [List.append_assoc] at ht

/-- The scan of a text goes on as before when the text is put together from its clauses. -/
theorem scan_rejoined {x text : List Char} {items : List (Option Token)}
    (hrest : (scan false text).rest = [])
    (hclauses : ∀ clause ∈ (scan false text).clauses, clause ≠ [])
    (hx : Crosses false x text items false) (hlines : Rejoinable text items) :
    scan false (x ++ rejoined (scan false text).clauses) = (scan false text).after items := by
  have hfirst := hclauses _ List.mem_cons_self
  obtain ⟨rest, htext, hcrosses, hend⟩ := scan_clause hfirst
  rw [Scan.clauses] at hclauses ⊢
  obtain ⟨hlater, hread⟩ | ⟨y, hcomma, hlater, hread⟩ := hend
  · obtain rfl : rest = [] := hread.symm.trans hrest
    have htext' : rejoined ((scan false text).first :: (scan false text).later) = text := by
      rw [hlater, rejoined, List.map_singleton, List.intercalate_singleton]
      rw [List.append_nil] at htext
      exact htext.symm
    rw [htext', hx.scan]
  · obtain ⟨gap, rfl, hpos, -⟩ := Lexeme.next_raw hcomma
    have hy : (scan false y).rest = [] := hread.symm.trans hrest
    have hshorter : y.length < text.length := by
      have hlength := congrArg List.length htext
      have hgap := List.length_pos_iff.mpr hpos
      simp only [List.length_append] at hlength
      omega
    have hx' := hx
    rw [htext] at hx' hlines
    have hstep := crosses_rejoined (hx'.trans hcrosses) hcomma hy fun hbreak =>
      hlines _ gap y _ ⟨hcrosses, hcomma, nofun⟩ rfl hbreak
    -- The clauses behind the comma are shorter, and stand behind the spaced comma as well.
    have hfront := hcrosses.trans (.single hcomma)
    rw [← List.append_assoc] at hlines
    have hrejoined := scan_rejoined hy (fun clause hclause => hclauses clause (by
      rw [hlater]
      exact List.mem_cons_of_mem _ hclause)) hstep
      (by rw [List.append_assoc]; exact hlines.of_crosses hfront)
    have hscan := hfront.scan
    rw [List.append_assoc, ← htext] at hscan
    have hlong : (scan false y).clauses ≠ [] := List.cons_ne_nil _ _
    rw [hlater, rejoined_cons hlong]
    calc scan false (x ++ ((scan false text).first.chars ++
          ([',', ' '] ++ rejoined (scan false y).clauses)))
      _ = scan false (x ++ (scan false text).first.chars ++ [',', ' '] ++
            rejoined (scan false y).clauses) := by simp only [List.append_assoc]
      _ = (scan false y).after (items ++ (scan false text).first.map some ++ [none]) := hrejoined
      _ = ((scan false y).after ((scan false text).first.map some ++ [none])).after items := by
        rw [List.append_assoc, Scan.after_append]
      _ = (scan false text).after items := congrArg (Scan.after items) hscan.symm
termination_by text.length

/-- A text and the one put together from its clauses end with the same clause. -/
theorem exists_last_clause {text : List Char} (hrest : (scan false text).rest = [])
    (hclauses : ∀ clause ∈ (scan false text).clauses, clause ≠ []) :
    ∃ x x', ∃ last ∈ (scan false text).clauses, text = x ++ last.chars ∧
      rejoined (scan false text).clauses = x' ++ last.chars ∧ Settled x ∧ Settled x' := by
  obtain ⟨rest, htext, hcrosses, hend⟩ := scan_clause (hclauses _ List.mem_cons_self)
  rw [Scan.clauses] at hclauses ⊢
  obtain ⟨hlater, hread⟩ | ⟨y, hcomma, hlater, hread⟩ := hend
  · obtain rfl : rest = [] := hread.symm.trans hrest
    rw [List.append_nil] at htext
    refine ⟨[], [], _, List.mem_cons_self, htext, ?_, .nil, .nil⟩
    rw [hlater, rejoined, List.map_singleton, List.intercalate_singleton, List.nil_append]
  · obtain ⟨gap, hgap, hpos, hsettled⟩ := Lexeme.next_raw hcomma
    have hshorter : y.length < text.length := by
      have hlt := length_lt_of_splits ⟨hgap, hpos⟩
      rw [htext, List.length_append]
      omega
    have hread' : ∀ clause ∈ (scan false y).clauses, clause ≠ [] := fun clause hclause =>
      hclauses clause (List.mem_cons_of_mem _ (hlater ▸ hclause))
    obtain ⟨x, x', last, hlast, hx, hx', hsx, hsx'⟩ :=
      exists_last_clause (hread.symm.trans hrest) hread'
    have hlong : (scan false y).clauses ≠ [] := List.cons_ne_nil _ _
    refine ⟨(scan false text).first.chars ++ (gap ++ x),
      (scan false text).first.chars ++ ([',', ' '] ++ x'), last,
      List.mem_cons_of_mem _ (hlater ▸ hlast), ?_, ?_,
      hcrosses.settled.append (hsettled.append hsx),
      hcrosses.settled.append (.append (.of_not_mem (by decide)) hsx')⟩
    · refine htext.trans ?_
      rw [hgap, hx]
      simp only [List.append_assoc]
    · rw [hlater, rejoined_cons hlong, hx']
      simp only [List.append_assoc]
termination_by text.length

/-- Nothing is trimmed from the text put together from the clauses of a trimmed text. -/
theorem trimBlanks_rejoined (htrim : trimBlanks text = text) (hrest : (scan false text).rest = [])
    (hclauses : ∀ clause ∈ (scan false text).clauses, clause ≠ []) :
    trimBlanks (rejoined (scan false text).clauses) = rejoined (scan false text).clauses := by
  obtain ⟨hhead, hend⟩ := trimBlanks_eq_self_iff.mp htrim
  have hchars : ∀ clause ∈ (scan false text).clauses, clause.chars ≠ [] := by
    intro clause hclause
    obtain ⟨t, ts, rfl⟩ := List.exists_cons_of_ne_nil (hclauses clause hclause)
    have hraw := scan_raw_ne false text _ hclause t List.mem_cons_self
    rw [Clause.chars_cons]
    exact fun hnil => hraw (String.toList_eq_nil_iff.mp (List.append_eq_nil_iff.mp hnil).1)
  refine trimBlanks_eq_self_iff.mpr ⟨?_, ?_⟩
  · obtain ⟨rest, htext, -⟩ := scan_clause (hclauses _ List.mem_cons_self)
    obtain ⟨c, chars, hfirst⟩ := List.exists_cons_of_ne_nil (hchars _ List.mem_cons_self)
    obtain ⟨more, hmore⟩ : ∃ more, rejoined (scan false text).clauses =
        (scan false text).first.chars ++ more := by
      rw [Scan.clauses]
      by_cases hlater : (scan false text).later = []
      · exact ⟨[], by rw [hlater, rejoined, List.map_singleton, List.intercalate_singleton,
          List.append_nil]⟩
      · exact ⟨_, rejoined_cons hlater _⟩
    have hc := hhead c (by rw [htext, hfirst]; rfl)
    rw [hmore, hfirst]
    rintro d ⟨⟩
    exact hc
  · obtain ⟨x, x', last, hlast, hx, hx', hsettled, hsettled'⟩ := exists_last_clause hrest hclauses
    intro z d hz hd hsettledz
    obtain hnil | ⟨w, e, hw⟩ := List.eq_nil_or_concat last.chars
    · exact hchars last hlast hnil
    · rw [List.concat_eq_append] at hw
      rw [hw, ← List.append_assoc] at hx hx'
      obtain ⟨rfl, he⟩ := List.append_inj' (hx'.symm.trans hz) rfl
      obtain rfl := (List.cons.inj he).1
      exact hend (x ++ w) e hx hd (hsettled.append (hsettled'.of_append_left hsettledz))

end Clauses

namespace SelectorList

variable {text : String} {list : SelectorList}

/-- Whether no call with nested parentheses stands in front of a comma that ends a line. -/
def Rejoins (list : SelectorList) : Prop := Rejoinable list.source.toList []

/-- The normalised text of a group is accepted and read as the same clauses. -/
theorem parse_display (h : parse text = .ok list) (hlines : list.Rejoins) :
    parse list.display = .ok ⟨list.display, list.clauses⟩ := by
  obtain ⟨hne, hfault, hrest, hcheck, rfl⟩ := parse_eq_ok_iff.mp h
  have hclauses : ∀ clause ∈ (scan false (trimBlanks text.toList)).clauses, clause ≠ [] :=
    fun clause hclause => (Clause.wellFormed_of_check (hcheck clause hclause)).ne_nil
  rw [Rejoins, String.toList_ofList] at hlines
  have hscan := scan_rejoined hrest hclauses (.done false _) hlines
  rw [List.nil_append] at hscan
  have htrim := trimBlanks_rejoined (trimBlanks_trimBlanks text.toList) hrest hclauses
  rw [Scan.after, List.foldr_nil] at hscan
  refine parse_eq_ok_iff.mpr ?_
  rw [toList_display, htrim, hscan]
  refine ⟨fun hnil => hclauses _ List.mem_cons_self ?_, hfault, hrest, hcheck, ?_⟩
  · rw [hnil, scan_nil] at hscan
    rw [← hscan]
    rfl
  · rw [SelectorList.mk.injEq, ← String.toList_inj, toList_display, String.toList_ofList]
    exact ⟨rfl, rfl⟩

-- Without the line feed the first argument goes on to the last parenthesis.
example : (parse ":contains(a(b))\n,p:contains(x)").isOk = true ∧
    (parse ":contains(a(b)), p:contains(x)").isOk = false := by
  decide +kernel

def rejoinedList : SelectorList :=
  ⟨":is(:not(a) b)\t,p", [[⟨":is(:not(a) b)", .pseudo ⟨"is", some ":not(a) b", false⟩⟩],
    [⟨"p", .tag "p"⟩]]⟩

theorem parse_display_sample :
    parse " :is(:not(a) b)\t,p\n" = .ok rejoinedList ∧
      parse ":is(:not(a) b), p" = .ok ⟨":is(:not(a) b), p", rejoinedList.clauses⟩ := by
  have hparse : parse " :is(:not(a) b)\t,p\n" = .ok rejoinedList := by decide +kernel
  have hunbroken : '\n' ∉ rejoinedList.source.toList := by decide +kernel
  have hrejoins : rejoinedList.Rejoins := by
    intro x gap y items _ hsource hbreak
    refine absurd ?_ hunbroken
    rw [hsource]
    exact List.mem_append_right _ (List.mem_append_left _ hbreak)
  have hdisplay : rejoinedList.display = ":is(:not(a) b), p" := by decide +kernel
  have hread := parse_display hparse hrejoins
  rw [hdisplay] at hread
  exact ⟨hparse, hread⟩

end SelectorList

end TreeQuery
