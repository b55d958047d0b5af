/-!
# Blanks and letters

The character classes that selectors, class attributes and fixtures share. A blank is one of five
ASCII characters; letter case is folded for ASCII letters only, so `É` and `é` stay different.
-/

namespace TreeQuery

def isBlank (c : Char) : Bool :=
  c == ' ' || c == '\t' || c == '\r' || c == '\n' || c == '\x0c'

/-- The characters that end a line and that a backslash does not escape. -/
def isLineEnd (c : Char) : Bool :=
  c == '\r' || c == '\n' || c == '\x0c'

def isHexDigit (c : Char) : Bool :=
  c.isDigit || ('a' ≤ c && c ≤ 'f') || ('A' ≤ c && c ≤ 'F')

def hexValue (c : Char) : Nat :=
  if c.isDigit then c.toNat - '0'.toNat
  else if 'a' ≤ c then c.toNat - 'a'.toNat + 10
  else c.toNat - 'A'.toNat + 10

/-- The number written by a run of hexadecimal digits, most significant first. -/
def hexNumber (digits : List Char) : Nat :=
  digits.foldl (fun n c => 16 * n + hexValue c) 0

def isWordChar (c : Char) : Bool :=
  c.isAlphanum || c == '_' || c == '-'

def isAscii (c : Char) : Bool :=
  c.toNat < 128

def dropBlanks (text : List Char) : List Char :=
  text.dropWhile isBlank

theorem dropBlanks_suffix (text : List Char) : dropBlanks text <:+ text :=
  List.dropWhile_suffix _

/-- Equality of texts up to the case of ASCII letters. -/
def equalFolded (a b : String) : Bool :=
  a.toLower == b.toLower

/-- The word a text starts with, empty if it starts with a blank, and the words after it. -/
def leadingWord : List Char → List Char × List (List Char)
  | [] => ([], [])
  | c :: rest =>
    let (word, later) := leadingWord rest
    if isBlank c then ([], if word.isEmpty then later else word :: later)
    else (c :: word, later)

/-- The maximal runs of characters that are not blanks, from left to right. -/
def blankWords (text : List Char) : List (List Char) :=
  let (word, later) := leadingWord text
  if word.isEmpty then later else word :: later

end TreeQuery
