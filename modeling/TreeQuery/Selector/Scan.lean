import TreeQuery.Selector.Lexeme

/-!
# Scanning selectors

`scan` reads as many lexemes as a text has and groups them into clauses. `SelectorList.parse`
accepts a text that is read to its end; `SelectorList.unread` says how much of a text is left over.

The argument of a nested pseudo-class is scanned as a text of its own. Where that scan stops, the
argument ends at the next closing parenthesis, and the rest is read again after it.
-/

namespace TreeQuery

/-- What has been read of a text and what is left. -/
structure Scan where
  first : Clause
  later : List Clause
  rest : List Char
  fault : Option SelectorError

namespace Scan

def clauses (s : Scan) : List Clause :=
  s.first :: s.later

/-- Puts a token in front. -/
def cons (t : Token) (s : Scan) : Scan :=
  { s with first := t :: s.first }

/-- Starts a clause in front. -/
def separated (s : Scan) : Scan :=
  { s with first := [], later := s.first :: s.later }

end Scan

/-- Splits an argument whose last `unread` characters are not selector text. It ends before the
first closing parenthesis among them. -/
def splitUnread (argument : List Char) (unread : Nat) : List Char × List Char :=
  let consumed := argument.take (argument.length - unread)
  let left := argument.drop (argument.length - unread)
  (consumed ++ left.takeWhile (· != ')'), left.dropWhile (· != ')'))

theorem splitUnread_append (argument : List Char) (unread : Nat) :
    (splitUnread argument unread).1 ++ (splitUnread argument unread).2 = argument := by
  simp [splitUnread, List.append_assoc, List.takeWhile_append_dropWhile]

/-- The parts that a nested pseudo-class leaves to read are shorter than its text. -/
theorem nested_lengths {text head argument rest : List Char} {name : String}
    (h : (Lexeme.nested name head argument rest).Splits text) (unread : Nat) :
    argument.length < text.length ∧
      ((splitUnread argument unread).2 ++ ')' :: rest).tail.length < text.length := by
  obtain ⟨rfl, hhead⟩ := h
  have hpos := List.length_pos_iff.mpr hhead
  have happ := congrArg List.length (splitUnread_append argument unread)
  simp only [List.length_append] at happ
  simp only [List.length_append, List.length_cons, List.length_tail]
  omega

theorem length_lt_of_splits {text raw rest : List Char} (h : text = raw ++ rest ∧ raw ≠ []) :
    rest.length < text.length := by
  obtain ⟨rfl, hne⟩ := h
  have := List.length_pos_iff.mpr hne
  simp only [List.length_append]
  omega

/-- Reads lexemes until the text ends, no lexeme fits, or one is faulty. -/
def scan (afterToken : Bool) (text : List Char) : Scan :=
  match _h : Lexeme.next afterToken text with
  | .separator rest => (scan false rest).separated
  | .token value rest => (scan true rest).cons ⟨String.ofList (before text rest), value⟩
  | .nested name head argument rest =>
    let split := splitUnread argument (scan false argument).rest.length
    let rest := (split.2 ++ ')' :: rest).tail
    let call : PseudoClass := ⟨name, some (String.ofList split.1), false⟩
    (scan true rest).cons ⟨String.ofList (head ++ split.1 ++ [')']), .pseudo call⟩
  | .fault e => ⟨[], [], text, some e⟩
  | .unknown => ⟨[], [], text, none⟩
termination_by text.length
decreasing_by
  all_goals have hsplits := _h ▸ Lexeme.next_splits afterToken text
  · obtain ⟨gap, hgap⟩ := hsplits
    exact length_lt_of_splits hgap
  · obtain ⟨raw, hraw⟩ := hsplits
    exact length_lt_of_splits hraw
  · exact (nested_lengths hsplits 0).1
  · exact (nested_lengths hsplits _).2

/-- The text without blanks at its end. A blank after an odd number of backslashes is escaped and
stays. The argument is the text from its last character to its first. -/
def dropLastBlanks : List Char → List Char
  | [] => []
  | c :: earlier =>
    if isBlank c && (earlier.takeWhile (· == '\\')).length % 2 == 0 then dropLastBlanks earlier
    else c :: earlier

def trimBlanks (text : List Char) : List Char :=
  (dropLastBlanks (dropBlanks text).reverse).reverse

def Token.isCombinator (t : Token) : Bool :=
  t.combinator?.isSome

/-- The first two combinators that stand side by side. -/
def Clause.doubledCombinator? : Clause → Option (Token × Token)
  | t :: u :: rest =>
    if t.isCombinator && u.isCombinator then some (t, u) else doubledCombinator? (u :: rest)
  | _ => none

/-- Refuses an empty clause, a combinator at the end and two combinators side by side. -/
def Clause.check (clause : Clause) : Except SelectorError Unit :=
  match clause.getLast? with
  | none => .error (.unrecognized ",")
  | some last =>
    if last.isCombinator then
      let sign := (dropBlanks (dropBlanks last.raw.toList).reverse).reverse
      .error (.unrecognized (String.ofList sign))
    else
      match clause.doubledCombinator? with
      | some (t, u) => .error (.unrecognized (t.raw ++ u.raw))
      | none => .ok ()

namespace SelectorList

/-- Reads a selector list. The first fault met from left to right is reported, then text that is
left over, then a clause that is not well formed. -/
def parse (text : String) : Except SelectorError SelectorList := do
  let trimmed := trimBlanks text.toList
  if trimmed.isEmpty then throw (.unrecognized text)
  let found := scan false trimmed
  if let some fault := found.fault then throw fault
  unless found.rest.isEmpty do throw (.unrecognized (String.ofList found.rest))
  found.clauses.forM Clause.check
  return ⟨String.ofList trimmed, found.clauses⟩

/-- The number of bytes at the end of a text that cannot be read as part of a selector. -/
def unread (text : String) : Nat :=
  (String.ofList (scan false text.toList).rest).utf8ByteSize

end SelectorList

end TreeQuery
