import TreeQuery.Text.Blank
import TreeQuery.Text.Numeral
import TreeQuery.Format.Datum

/-!
# JSON texts

A reader of JSON that keeps what settings need: objects, arrays, booleans and numbers without sign,
fraction and exponent. Every other value is read for its form only. An escape for half of a
surrogate pair is a fault in the name of a field that matters and nowhere else.
-/

namespace TreeQuery.Json

def isSpace (c : Char) : Bool := c == ' ' || c == '\t' || c == '\n' || c == '\r'

def skipSpaces (text : List Char) : List Char := text.dropWhile isSpace

/-- A code of four hexadecimal digits. -/
def codeUnit? : List Char → Option (Nat × List Char)
  | a :: b :: c :: d :: rest =>
    if [a, b, c, d].all isHexDigit then some (hexNumber [a, b, c, d], rest) else none
  | _ => none

/-- One character of a string after a backslash: its codes in UTF-16 and the text after it. -/
def escaped? : List Char → Option (Nat × List Char)
  | 'u' :: rest => codeUnit? rest
  | c :: rest =>
    match c with
    | '"' => some (0x22, rest)
    | '\\' => some (0x5c, rest)
    | '/' => some (0x2f, rest)
    | 'b' => some (0x08, rest)
    | 'f' => some (0x0c, rest)
    | 'n' => some (0x0a, rest)
    | 'r' => some (0x0d, rest)
    | 't' => some (0x09, rest)
    | _ => none
  | [] => none

/-- The pieces of a string after its opening quote: characters as they stand and codes from
escapes. -/
def pieces? : Nat → List Char → Option (List (Char ⊕ Nat) × List Char)
  | 0, _ => none
  | bound + 1, text =>
    match text with
    | [] => none
    | '"' :: rest => some ([], rest)
    | '\\' :: rest => do
      let (code, rest) ← escaped? rest
      let (more, rest) ← pieces? bound rest
      return (.inr code :: more, rest)
    | c :: rest =>
      if c.toNat < 0x20 then none
      else do
        let (more, rest) ← pieces? bound rest
        return (.inl c :: more, rest)

/-- Puts pieces together; codes of surrogates count only in pairs. -/
def assemble? : List (Char ⊕ Nat) → Option (List Char)
  | [] => some []
  | .inl c :: rest => (assemble? rest).map (c :: ·)
  | [.inr code] => if code.isValidChar then some [Char.ofNat code] else none
  | .inr code :: .inr low :: rest =>
    if 0xd800 ≤ code ∧ code < 0xdc00 then
      if 0xdc00 ≤ low ∧ low < 0xe000 then
        (assemble? rest).map (Char.ofNat (0x10000 + (code - 0xd800) * 0x400 + (low - 0xdc00)) :: ·)
      else none
    else if code.isValidChar then (assemble? (.inr low :: rest)).map (Char.ofNat code :: ·)
    else none
  | .inr code :: .inl c :: rest =>
    if code.isValidChar then (assemble? rest).map fun more => Char.ofNat code :: c :: more else none

/-- A string after its opening quote; `none` inside for one that is no text. -/
def string? (text : List Char) : Option (Option String × List Char) :=
  (pieces? (text.length + 1) text).map fun (pieces, rest) =>
    ((assemble? pieces).map String.ofList, rest)

def digits? (text : List Char) : Option (List Char) :=
  match text with
  | c :: _ => if c.isDigit then some (text.dropWhile Char.isDigit) else none
  | [] => none

def fraction? : List Char → Option (List Char)
  | '.' :: rest => digits? rest
  | text => some text

def exponent? : List Char → Option (List Char)
  | c :: rest =>
    if c == 'e' || c == 'E' then
      match rest with
      | '+' :: rest => digits? rest
      | '-' :: rest => digits? rest
      | rest => digits? rest
    else some (c :: rest)
  | [] => some []

/-- A number. Zero stands alone before the point. -/
def number? (text : List Char) : Option (Datum × List Char) := do
  let (negative, digits) := match text with
    | '-' :: rest => (true, rest)
    | rest => (false, rest)
  let whole ← match digits with
    | '0' :: rest => some rest
    | rest => digits? rest
  if digits.head? == some '0' && whole.head?.any Char.isDigit then none
  let rest ← exponent? (← fraction? whole)
  let written := digits.take (digits.length - rest.length)
  let value := (decimal? written).filter fun n => !negative && n ≤ maxUnsigned
  return ((value.map Datum.count).getD .other, rest)

def keyword? (word : String) (value : Datum) (text : List Char) : Option (Datum × List Char) :=
  if word.toList.isPrefixOf text then some (value, text.drop word.length) else none

mutual

/-- A value at the start of a text, with a bound on the steps taken. -/
def value? : Nat → List Char → Option (Datum × List Char)
  | 0, _ => none
  | bound + 1, text =>
    match skipSpaces text with
    | '{' :: rest =>
      match skipSpaces rest with
      | '}' :: rest => some (.fields [], rest)
      | rest => (entries? bound rest).map fun (entries, rest) => (.fields entries, rest)
    | '[' :: rest =>
      match skipSpaces rest with
      | ']' :: rest => some (.row [], rest)
      | rest => (items? bound rest).map fun (items, rest) => (.row items, rest)
    | '"' :: rest => (string? rest).map fun (_, rest) => (.other, rest)
    | 't' :: rest => keyword? "true" (.switch true) ('t' :: rest)
    | 'f' :: rest => keyword? "false" (.switch false) ('f' :: rest)
    | 'n' :: rest => keyword? "null" .other ('n' :: rest)
    | rest => number? rest

def entries? : Nat → List Char → Option (List (Option String × Datum) × List Char)
  | 0, _ => none
  | bound + 1, text =>
    match skipSpaces text with
    | '"' :: rest => do
      let (name, rest) ← string? rest
      match skipSpaces rest with
      | ':' :: rest => do
        let (value, rest) ← value? bound rest
        match skipSpaces rest with
        | ',' :: rest => do
          let (more, rest) ← entries? bound rest
          return ((name, value) :: more, rest)
        | '}' :: rest => return ([(name, value)], rest)
        | _ => none
      | _ => none
    | _ => none

def items? : Nat → List Char → Option (List Datum × List Char)
  | 0, _ => none
  | bound + 1, text => do
    let (value, rest) ← value? bound text
    match skipSpaces rest with
    | ',' :: rest => do
      let (more, rest) ← items? bound rest
      return (value :: more, rest)
    | ']' :: rest => return ([value], rest)
    | _ => none

end

def read? (text : String) : Option Datum := do
  let text := text.toList
  let (value, rest) ← value? (text.length + 1) text
  if (skipSpaces rest).isEmpty then some value else none

end TreeQuery.Json
