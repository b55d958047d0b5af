import TreeQuery.Proofs.Selector.Arguments

/-!
# Names in selectors

A name that is read has a character, also when it is spelled with escapes.
-/

namespace TreeQuery

lemma unescape_ne_nil {text : List Char} (h : text ≠ []) : unescape text ≠ [] := by
  cases text with
  | nil => exact absurd rfl h
  | cons c rest =>
    rw [unescape]
    split
    · split
      · exact List.cons_ne_nil _ _
      · exact List.cons_ne_nil _ _
    · exact List.cons_ne_nil _ _

/-- What holds of every token that is read at once, and of every pseudo-class, holds of all tokens
of a text. -/
theorem scan_forall {P : Token → Prop}
    (htoken : ∀ {afterToken text value rest}, Lexeme.next afterToken text = .token value rest →
      ∀ raw, P ⟨raw, value⟩)
    (hpseudo : ∀ raw call, P ⟨raw, .pseudo call⟩) (afterToken : Bool) (text : List Char) :
    ∀ c ∈ (scan afterToken text).clauses, ∀ t ∈ c, P t := by
  fun_induction scan afterToken text with
  | case1 afterToken text rest h ih =>
    intro c hc t ht
    simp only [Scan.clauses, Scan.separated, List.mem_cons] at hc
    obtain rfl | hc := hc
    · simp at ht
    · exact ih c (by simpa [Scan.clauses] using hc) t ht
  | case2 afterToken text value rest h ih =>
    intro c hc t ht
    obtain rfl | ⟨c, hc, ht⟩ := Scan.mem_clauses_cons hc ht
    · exact htoken h _
    · exact ih c hc t ht
  | case3 afterToken text name head argument rest h split rest' call ih₁ ih₂ =>
    intro c hc t ht
    obtain rfl | ⟨c, hc, ht⟩ := Scan.mem_clauses_cons hc ht
    · exact hpseudo _ _
    · exact ih₂ c hc t ht
  | case4 => simp [Scan.clauses]
  | case5 => simp [Scan.clauses]

lemma pseudo?_className {text rest : List Char} {word : String} :
    pseudo? text ≠ some (.token (.className word) rest) := by
  intro h
  unfold pseudo? at h
  split at h
  · simp only [Option.bind_eq_bind, Option.bind_eq_some_iff, Prod.exists] at h
    obtain ⟨_, _, _, h⟩ := h
    split at h
    · simp at h
    · simp at h
    · simp at h
    · split at h <;> simp at h
  · simp at h

lemma simpleTest_className {text rest : List Char} {word : String}
    (h : simpleTest text = .token (.className word) rest) : word.toList ≠ [] := by
  unfold simpleTest at h
  split at h
  · simp at h
  · rename_i c text
    split at h
    · simp at h
    split at h
    · split at h <;> simp at h
    split at h
    · split at h
      · rename_i name rest' hname
        simp only [Lexeme.token.injEq, TokenValue.className.injEq] at h
        rw [← h.1, String.toList_ofList]
        exact unescape_ne_nil (identifier?_append hname).2
      · simp at h
    split at h
    · split at h <;> simp at h
    split at h
    · split at h
      · simp at h
      · simp at h
      · cases hp : pseudo? (c :: text) with
        | none => simp [hp] at h
        | some lexeme =>
          rw [hp, Option.getD_some] at h
          exact absurd (h ▸ hp) pseudo?_className
    · split at h <;> simp at h

lemma SelectorList.className_ne_nil {text : String} {list : SelectorList}
    (h : SelectorList.parse text = .ok list) {clause : Clause} (hclause : clause ∈ list.clauses)
    {t : Token} (ht : t ∈ clause) {word : String} (hword : t.value = .className word) :
    word.toList ≠ [] := by
  rw [(SelectorList.parse_eq_ok h).1] at hclause
  refine scan_forall (P := fun t => ∀ word, t.value = .className word → word.toList ≠ []) ?_ ?_ false
    (trimBlanks text.toList) clause hclause t ht word hword
  · intro afterToken text value rest hnext raw word hvalue
    change value = .className word at hvalue
    subst hvalue
    unfold Lexeme.next at hnext
    split at hnext
    · simp at hnext
    · simp at hnext
    · split at hnext
      · simp at hnext
      · exact simpleTest_className hnext
  · intro raw call word hvalue
    simp at hvalue

end TreeQuery
