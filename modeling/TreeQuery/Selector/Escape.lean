import TreeQuery.Text.Blank

/-!
# Escapes and identifiers

A backslash takes one to six hexadecimal digits and at most one blank after them, or else any one
character that does not end a line. An identifier is a run of escapes, word characters and
characters outside ASCII.
-/

namespace TreeQuery

/-- What a backslash takes: the characters after it, and the character they stand for. -/
structure Escape where
  raw : List Char
  value : Char
  rest : List Char

/-- Up to `n` hexadecimal digits and the text after them. -/
def splitHex : Nat → List Char → List Char × List Char
  | n + 1, c :: text =>
    if isHexDigit c then
      let (digits, rest) := splitHex n text
      (c :: digits, rest)
    else ([], c :: text)
  | _, text => ([], text)

/-- The character with a given code; the replacement character stands for code zero and for codes
that no character has. -/
def charOfCode (code : Nat) : Char :=
  if code ≠ 0 ∧ code.isValidChar then Char.ofNat code else '\ufffd'

def escape? (text : List Char) : Option Escape :=
  match splitHex 6 text with
  | ([], []) => none
  | ([], c :: rest) => if isLineEnd c then none else some ⟨[c], c, rest⟩
  | (digits, c :: rest) =>
    if isBlank c then some ⟨digits ++ [c], charOfCode (hexNumber digits), rest⟩
    else some ⟨digits, charOfCode (hexNumber digits), c :: rest⟩
  | (digits, []) => some ⟨digits, charOfCode (hexNumber digits), []⟩

theorem splitHex_append (n : Nat) (text : List Char) :
    (splitHex n text).1 ++ (splitHex n text).2 = text := by
  induction n generalizing text with
  | zero => simp [splitHex]
  | succ n ih =>
    cases text with
    | nil => simp [splitHex]
    | cons c text =>
      by_cases h : isHexDigit c
      · simp [splitHex, h, ih]
      · simp [splitHex, h]

theorem escape?_append {text : List Char} {e : Escape} (h : escape? text = some e) :
    text = e.raw ++ e.rest := by
  have happ := splitHex_append 6 text
  unfold escape? at h
  split at h
  · simp at h
  · rename_i c rest heq
    rw [heq] at happ
    split at h <;> simp at h
    subst h
    simpa using happ.symm
  · rename_i c rest hne heq
    rw [heq] at happ
    split at h <;> · simp at h; subst h; simpa using happ.symm
  · rename_i hne heq
    rw [heq] at happ
    simp at h
    subst h
    simpa using happ.symm

/-- Replaces every escape by the character it stands for. A backslash that takes nothing stays. -/
def unescape (text : List Char) : List Char :=
  match text with
  | [] => []
  | c :: rest =>
    if c = '\\' then
      match _h : escape? rest with
      | some e => e.value :: unescape e.rest
      | none => c :: unescape rest
    else c :: unescape rest
termination_by text.length
decreasing_by
  all_goals simp_wf
  have := congrArg List.length (escape?_append _h)
  simp at this
  omega

def identifierUnit? : List Char → Option (List Char × List Char)
  | [] => none
  | c :: rest =>
    if c = '\\' then (escape? rest).map fun e => (c :: e.raw, e.rest)
    else if isWordChar c || !isAscii c then some ([c], rest)
    else none

theorem identifierUnit?_append {text unit rest : List Char}
    (h : identifierUnit? text = some (unit, rest)) : text = unit ++ rest ∧ unit ≠ [] := by
  cases text with
  | nil => simp [identifierUnit?] at h
  | cons c text =>
    by_cases hc : c = '\\'
    · simp [identifierUnit?, hc] at h
      obtain ⟨e, he, rfl, rfl⟩ := h
      simp [hc, escape?_append he]
    · simp [identifierUnit?, hc] at h
      obtain ⟨_, rfl, rfl⟩ := h
      simp

/-- The longest identifier at the start of a text, empty if there is none, and the text after
it. -/
def splitIdentifier (text : List Char) : List Char × List Char :=
  match _h : identifierUnit? text with
  | none => ([], text)
  | some (unit, rest) =>
    let (more, rest) := splitIdentifier rest
    (unit ++ more, rest)
termination_by text.length
decreasing_by
  have := identifierUnit?_append _h
  have hlen := congrArg List.length this.1
  have := List.length_pos_iff.mpr this.2
  simp at hlen
  omega

theorem splitIdentifier_append (text : List Char) :
    (splitIdentifier text).1 ++ (splitIdentifier text).2 = text := by
  fun_induction splitIdentifier text with
  | case1 text h => simp
  | case2 text unit rest h more rest' heq ih =>
    have := (identifierUnit?_append h).1
    simp_all

def identifier? (text : List Char) : Option (List Char × List Char) :=
  match splitIdentifier text with
  | ([], _) => none
  | parts => some parts

theorem identifier?_append {text name rest : List Char} (h : identifier? text = some (name, rest)) :
    text = name ++ rest ∧ name ≠ [] := by
  have happ := splitIdentifier_append text
  unfold identifier? at h
  split at h
  · simp at h
  · rename_i hne
    simp only [Option.some.injEq] at h
    rw [h] at happ hne
    exact ⟨happ.symm, fun hn => hne rest (by rw [hn])⟩

def isIdentifier (text : List Char) : Bool :=
  match splitIdentifier text with
  | ([], _) => false
  | (_, rest) => rest.isEmpty

end TreeQuery
