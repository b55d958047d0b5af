import Mathlib.Tactic.Lemma
import TreeQuery.Selector.Scan

/-!
# Arguments of pseudo-classes

The argument of a pseudo-class is shorter than the text that it was read from, so selectors within
selectors cannot go on for ever.
-/

namespace TreeQuery

/-- Whether the argument of a token, if it has one, is shorter than a bound. -/
def Token.Within (bound : Nat) (t : Token) : Prop :=
  ∀ call, t.value = .pseudo call → ∀ argument, call.argument = some argument →
    argument.length < bound

lemma Token.Within.mono {bound larger : Nat} {t : Token} (h : t.Within bound)
    (hle : bound ≤ larger) : t.Within larger := fun call hcall argument hargument =>
  Nat.lt_of_lt_of_le (h call hcall argument hargument) hle

lemma quotedBody?_length {quote : Char} {text body rest : List Char}
    (h : quotedBody? quote text = some (body, rest)) : body.length < text.length := by
  fun_induction quotedBody? quote text generalizing body with
  | case1 => simp at h
  | case2 => simp at h
  | case3 => simp at h
  | case4 c text hc ih =>
    obtain ⟨⟨b, r⟩, hb, heq⟩ := Option.map_eq_some_iff.mp h
    obtain ⟨rfl, rfl⟩ := Prod.mk.inj heq
    have := ih hb
    simp only [List.length_cons]
    omega
  | case5 text =>
    obtain ⟨rfl, -⟩ := Prod.mk.inj (Option.some.inj h)
    simp
  | case6 c text _ _ hc ih =>
    obtain ⟨⟨b, r⟩, hb, heq⟩ := Option.map_eq_some_iff.mp h
    obtain ⟨rfl, rfl⟩ := Prod.mk.inj heq
    have := ih hb
    simp only [List.length_cons]
    omega

/-- The text of an argument that was read. -/
def Argument.text? : Argument → Option (List Char)
  | .absent => none
  | .quoted body => some body
  | .plain text => some text
  | .line text => some text

lemma quotedArgument?_length {text rest : List Char} {argument : Argument}
    (h : quotedArgument? text = some (argument, rest)) :
    ∀ body, argument.text? = some body → body.length < text.length := by
  intro body hbody
  unfold quotedArgument? at h
  simp only at h
  split at h
  · rename_i read after heq
    obtain ⟨rfl, rfl⟩ := Prod.mk.inj (Option.some.inj h)
    obtain rfl := Option.some.inj hbody
    split at heq
    · exact Nat.lt_succ_of_lt (quotedBody?_length heq)
    · exact Nat.lt_succ_of_lt (quotedBody?_length heq)
    · simp at heq
  · simp at h

lemma length_lt_of_parenthesis {text inner rest : List Char} (h : text = inner ++ ')' :: rest) :
    inner.length < text.length := by
  rw [h, List.length_append, List.length_cons]
  omega

lemma splitArgument_length (text : List Char) :
    ∀ body, (splitArgument text).1.text? = some body → body.length < text.length := by
  intro body hbody
  unfold splitArgument at hbody
  split at hbody
  · rename_i text
    cases hq : quotedArgument? text with
    | some found =>
      rw [hq] at hbody
      exact Nat.lt_succ_of_lt (quotedArgument?_length hq body hbody)
    | none =>
      cases hp : plainArgument? text with
      | some found =>
        rw [hq, hp] at hbody
        obtain ⟨plain, hplain, happ⟩ := plainArgument?_splits hp
        change found.1.text? = some body at hbody
        rw [hplain] at hbody
        obtain rfl := Option.some.inj hbody
        exact Nat.lt_succ_of_lt (length_lt_of_parenthesis happ)
      | none =>
        cases hl : lineArgument? text with
        | some found =>
          rw [hq, hp, hl] at hbody
          obtain ⟨inner, hinner, happ⟩ := lineArgument?_splits hl
          change found.1.text? = some body at hbody
          rw [hinner] at hbody
          obtain rfl := Option.some.inj hbody
          exact Nat.lt_succ_of_lt (length_lt_of_parenthesis happ)
        | none =>
          rw [hq, hp, hl] at hbody
          simp [Argument.text?] at hbody
  · simp [Argument.text?] at hbody

lemma pseudo?_length {text rest : List Char} {value : TokenValue}
    (h : pseudo? text = some (.token value rest)) (raw : String) :
    (Token.mk raw value).Within text.length := by
  intro call hcall argument hargument
  change value = .pseudo call at hcall
  subst hcall
  unfold pseudo? at h
  split at h
  · rename_i text
    simp only [Option.bind_eq_bind, Option.bind_eq_some_iff, Prod.exists] at h
    obtain ⟨spelled, after, hname, h⟩ := h
    have hshort := splitArgument_length after
    have hafter := (identifier?_suffix hname).length_le
    have hbound : ∀ body : List Char, body.length < after.length →
        (String.ofList body).length < (':' :: text).length := fun body hbody => by
      rw [String.length_ofList, List.length_cons]
      omega
    split at h <;> rename_i heq <;> rw [heq] at hshort
    · simp only [Option.pure_def, Option.some.injEq, Lexeme.token.injEq, TokenValue.pseudo.injEq] at h
      obtain ⟨rfl, -⟩ := h
      simp at hargument
    · simp only [Option.pure_def, Option.some.injEq, Lexeme.token.injEq, TokenValue.pseudo.injEq] at h
      obtain ⟨rfl, -⟩ := h
      exact Option.some.inj hargument ▸ hbound _ (hshort _ rfl)
    · simp only [Option.pure_def, Option.some.injEq, Lexeme.token.injEq, TokenValue.pseudo.injEq] at h
      obtain ⟨rfl, -⟩ := h
      exact Option.some.inj hargument ▸ hbound _ (hshort _ rfl)
    · split at h
      · simp at h
      · simp only [Option.pure_def, Option.some.injEq, Lexeme.token.injEq,
          TokenValue.pseudo.injEq] at h
        obtain ⟨rfl, -⟩ := h
        exact Option.some.inj hargument ▸ hbound _ (hshort _ rfl)
  · simp at h

lemma simpleTest_length {text rest : List Char} {value : TokenValue}
    (h : simpleTest text = .token value rest) (raw : String) :
    (Token.mk raw value).Within text.length := by
  intro call hcall argument hargument
  change value = .pseudo call at hcall
  subst hcall
  unfold simpleTest at h
  split at h
  · simp at h
  · rename_i c text
    split at h
    · simp at h
    split at h
    · split at h <;> simp at h
    split at h
    · split at h <;> simp at h
    split at h
    · split at h <;> simp at h
    split at h
    · split at h
      · simp at h
      · simp at h
      · cases hp : pseudo? (c :: text) with
        | none => simp [hp] at h
        | some lexeme =>
          rw [hp, Option.getD_some] at h
          exact pseudo?_length (h ▸ hp) raw call rfl argument hargument
    · split at h <;> simp at h

lemma Lexeme.next_length {afterToken : Bool} {text rest : List Char} {value : TokenValue}
    (h : Lexeme.next afterToken text = .token value rest) (raw : String) :
    (Token.mk raw value).Within text.length := by
  unfold Lexeme.next at h
  split at h
  · simp at h
  · simp at h
  · split at h
    · intro call hcall
      simp only [Lexeme.token.injEq] at h
      rw [← h.1] at hcall
      simp at hcall
    · exact simpleTest_length h raw

lemma Scan.mem_clauses_cons {t u : Token} {s : Scan} {c : Clause}
    (hc : c ∈ (s.cons t).clauses) (hu : u ∈ c) : u = t ∨ ∃ c ∈ s.clauses, u ∈ c := by
  simp only [Scan.clauses, Scan.cons, List.mem_cons] at hc
  obtain rfl | hc := hc
  · obtain rfl | hu := List.mem_cons.mp hu
    · exact .inl rfl
    · exact .inr ⟨s.first, by simp [Scan.clauses], hu⟩
  · exact .inr ⟨c, by simp [Scan.clauses, hc], hu⟩

/-- Arguments are shorter than the text that is scanned. -/
theorem scan_within (afterToken : Bool) (text : List Char) :
    ∀ c ∈ (scan afterToken text).clauses, ∀ t ∈ c, t.Within text.length := by
  fun_induction scan afterToken text with
  | case1 afterToken text rest h ih =>
    intro c hc t ht
    obtain ⟨gap, hgap⟩ := (h ▸ Lexeme.next_splits afterToken text : Lexeme.Splits _ _)
    have hlt := length_lt_of_splits hgap
    simp only [Scan.clauses, Scan.separated, List.mem_cons] at hc
    obtain rfl | hc := hc
    · simp at ht
    · exact (ih c (by simpa [Scan.clauses] using hc) t ht).mono (Nat.le_of_lt hlt)
  | case2 afterToken text value rest h ih =>
    intro c hc t ht
    obtain ⟨raw, hraw⟩ := (h ▸ Lexeme.next_splits afterToken text : Lexeme.Splits _ _)
    obtain rfl | ⟨c, hc, ht⟩ := Scan.mem_clauses_cons hc ht
    · exact Lexeme.next_length h _
    · exact (ih c hc t ht).mono (Nat.le_of_lt (length_lt_of_splits hraw))
  | case3 afterToken text name head argument rest h split rest' call ih₁ ih₂ =>
    intro c hc t ht
    have hsplits : Lexeme.Splits text (.nested name head argument rest) :=
      h ▸ Lexeme.next_splits afterToken text
    have hlengths := nested_lengths hsplits (scan false argument).rest.length
    obtain rfl | ⟨c, hc, ht⟩ := Scan.mem_clauses_cons hc ht
    · intro call' hcall argument' hargument
      obtain rfl := TokenValue.pseudo.inj hcall
      obtain rfl := Option.some.inj hargument
      have happ := congrArg List.length
        (splitUnread_append argument (scan false argument).rest.length)
      rw [List.length_append] at happ
      change (String.ofList (splitUnread argument (scan false argument).rest.length).1).length < _
      rw [String.length_ofList]
      omega
    · exact (ih₂ c hc t ht).mono (Nat.le_of_lt hlengths.2)
  | case4 => simp [Scan.clauses]
  | case5 => simp [Scan.clauses]

lemma length_dropLastBlanks_le (text : List Char) :
    (dropLastBlanks text).length ≤ text.length := by
  fun_induction dropLastBlanks text with
  | case1 => simp
  | case2 c earlier h ih => exact Nat.le_succ_of_le ih
  | case3 c earlier h => exact Nat.le_refl _

lemma length_trimBlanks_le (text : List Char) : (trimBlanks text).length ≤ text.length := by
  have hlast := length_dropLastBlanks_le (dropBlanks text).reverse
  have hfirst := (dropBlanks_suffix text).length_le
  rw [List.length_reverse] at hlast
  rw [trimBlanks, List.length_reverse]
  exact Nat.le_trans hlast hfirst

/-- What a text that is read was scanned from, and that its clauses are well formed. -/
theorem SelectorList.parse_eq_ok {text : String} {list : SelectorList}
    (h : SelectorList.parse text = .ok list) :
    list.clauses = (scan false (trimBlanks text.toList)).clauses ∧
      list.source = String.ofList (trimBlanks text.toList) ∧
      list.clauses.forM Clause.check = .ok () := by
  simp only [SelectorList.parse, bind, Except.bind, throw, throwThe, MonadExceptOf.throw] at h
  split at h
  · simp at h
  split at h
  · simp at h
  split at h
  · split at h
    · simp at h
    · rename_i hcheck
      obtain rfl := Except.ok.inj h
      exact ⟨rfl, rfl, hcheck⟩
  · simp at h

/-- Arguments are shorter than the text of the selector list. -/
theorem SelectorList.parse_within {text : String} {list : SelectorList}
    (h : SelectorList.parse text = .ok list) :
    ∀ c ∈ list.clauses, ∀ t ∈ c, t.Within text.length := by
  intro c hc t ht
  rw [(SelectorList.parse_eq_ok h).1] at hc
  exact (scan_within _ _ c hc t ht).mono (length_trimBlanks_le text.toList)

end TreeQuery
