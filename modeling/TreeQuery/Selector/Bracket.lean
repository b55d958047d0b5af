import TreeQuery.Selector.Token
import TreeQuery.Selector.Escape

/-!
# Attribute tests in brackets

`[name]`, or `[name op value]` with the value in quotes or written as an identifier. Blanks may
stand around each part. The readers give back the text after what they read, and what they read is
the text before it.
-/

namespace TreeQuery

/-- The text up to a closing quote and the text after it. A backslash takes the next character,
which may not be a line feed. -/
def quotedBody? (quote : Char) : List Char → Option (List Char × List Char)
  | [] => none
  | ['\\'] => none
  | '\\' :: c :: text =>
    if c = '\n' then none
    else (quotedBody? quote text).map fun (body, rest) => ('\\' :: c :: body, rest)
  | c :: text =>
    if c = quote then some ([], text)
    else (quotedBody? quote text).map fun (body, rest) => (c :: body, rest)

def attributeOperator? : List Char → Option (AttributeOperator × List Char)
  | '=' :: text => some (.equals, text)
  | '!' :: '=' :: text => some (.differs, text)
  | '^' :: '=' :: text => some (.startsWith, text)
  | '$' :: '=' :: text => some (.endsWith, text)
  | '*' :: '=' :: text => some (.contains, text)
  | '~' :: '=' :: text => some (.includes, text)
  | '|' :: '=' :: text => some (.dashMatch, text)
  | _ => none

/-- A value in quotes or an identifier, its escapes standing. -/
def checkValue? : List Char → Option (List Char × List Char)
  | '\'' :: text => quotedBody? '\'' text
  | '"' :: text => quotedBody? '"' text
  | text => identifier? text

def comparison? (text : List Char) : Option ((AttributeOperator × List Char) × List Char) := do
  let (operator, text) ← attributeOperator? (dropBlanks text)
  let (value, text) ← checkValue? (dropBlanks text)
  return ((operator, value), text)

def closeBracket? (text : List Char) : Option (List Char) :=
  match dropBlanks text with
  | ']' :: rest => some rest
  | _ => none

/-- The test that name, operator and value as written stand for. -/
def AttributeTest.ofSpelling (name : List Char) :
    Option (AttributeOperator × List Char) → AttributeTest
  | none => ⟨String.ofList (unescape name), none, ""⟩
  | some (.includes, value) =>
    ⟨String.ofList (unescape name), some .includes, " " ++ String.ofList (unescape value) ++ " "⟩
  | some (operator, value) =>
    ⟨String.ofList (unescape name), some operator, String.ofList (unescape value)⟩

def attributeTest? : List Char → Option (AttributeTest × List Char)
  | '[' :: text => do
    let (name, text) ← identifier? (dropBlanks text)
    let (compared, text) := match comparison? text with
      | some (compared, rest) => (some compared, rest)
      | none => (none, text)
    let rest ← closeBracket? text
    return (.ofSpelling name compared, rest)
  | _ => none

theorem quotedBody?_suffix {quote : Char} {text body rest : List Char}
    (h : quotedBody? quote text = some (body, rest)) : rest <:+ text := by
  fun_induction quotedBody? quote text generalizing body with
  | case1 => simp at h
  | case2 => simp at h
  | case3 => simp at h
  | case4 c text hc ih =>
    simp only [Option.map_eq_some_iff] at h
    obtain ⟨⟨b, r⟩, hb, heq⟩ := h
    simp only [Prod.mk.injEq] at heq
    obtain ⟨-, rfl⟩ := heq
    exact (ih hb).trans ⟨['\\', c], rfl⟩
  | case5 text =>
    simp at h
    exact ⟨[quote], by simp [h.2]⟩
  | case6 c text _ _ hc ih =>
    simp only [Option.map_eq_some_iff] at h
    obtain ⟨⟨b, r⟩, hb, heq⟩ := h
    simp only [Prod.mk.injEq] at heq
    obtain ⟨-, rfl⟩ := heq
    exact (ih hb).trans ⟨[c], rfl⟩

theorem identifier?_suffix {text name rest : List Char} (h : identifier? text = some (name, rest)) :
    rest <:+ text :=
  ⟨name, (identifier?_append h).1.symm⟩

theorem attributeOperator?_suffix {text rest : List Char} {operator : AttributeOperator}
    (h : attributeOperator? text = some (operator, rest)) : rest <:+ text := by
  unfold attributeOperator? at h
  split at h <;> simp at h <;> obtain ⟨-, rfl⟩ := h
  · exact ⟨['='], rfl⟩
  · exact ⟨['!', '='], rfl⟩
  · exact ⟨['^', '='], rfl⟩
  · exact ⟨['$', '='], rfl⟩
  · exact ⟨['*', '='], rfl⟩
  · exact ⟨['~', '='], rfl⟩
  · exact ⟨['|', '='], rfl⟩

theorem checkValue?_suffix {text value rest : List Char}
    (h : checkValue? text = some (value, rest)) : rest <:+ text := by
  unfold checkValue? at h
  split at h
  · exact (quotedBody?_suffix h).trans ⟨['\''], rfl⟩
  · exact (quotedBody?_suffix h).trans ⟨['"'], rfl⟩
  · exact identifier?_suffix h

theorem comparison?_suffix {text rest : List Char} {compared : AttributeOperator × List Char}
    (h : comparison? text = some (compared, rest)) : rest <:+ text := by
  simp only [comparison?, Option.bind_eq_bind, Option.bind_eq_some_iff, Option.pure_def,
    Option.some.injEq, Prod.mk.injEq, Prod.exists] at h
  obtain ⟨_, after, hop, _, _, hvalue, -, rfl⟩ := h
  exact (checkValue?_suffix hvalue).trans ((dropBlanks_suffix after).trans
    ((attributeOperator?_suffix hop).trans (dropBlanks_suffix text)))

theorem closeBracket?_suffix {text rest : List Char} (h : closeBracket? text = some rest) :
    rest <:+ text := by
  unfold closeBracket? at h
  split at h
  · rename_i after heq
    simp at h
    subst h
    exact (show after <:+ dropBlanks text by rw [heq]; exact ⟨[']'], rfl⟩).trans
      (dropBlanks_suffix text)
  · simp at h

theorem attributeTest?_suffix {text rest : List Char} {test : AttributeTest}
    (h : attributeTest? text = some (test, rest)) :
    ∃ inner, text = '[' :: inner ∧ rest <:+ inner := by
  unfold attributeTest? at h
  split at h
  · rename_i inner
    refine ⟨inner, rfl, ?_⟩
    simp only [Option.bind_eq_bind, Option.bind_eq_some_iff, Option.pure_def, Option.some.injEq,
      Prod.mk.injEq, Prod.exists] at h
    obtain ⟨_, after, hname, _, hclose, -, rfl⟩ := h
    have hafter : after <:+ inner := (identifier?_suffix hname).trans (dropBlanks_suffix inner)
    cases hc : comparison? after with
    | none => rw [hc] at hclose; exact (closeBracket?_suffix hclose).trans hafter
    | some compared =>
      rw [hc] at hclose
      exact (closeBracket?_suffix hclose).trans ((comparison?_suffix hc).trans hafter)
  · simp at h

end TreeQuery
