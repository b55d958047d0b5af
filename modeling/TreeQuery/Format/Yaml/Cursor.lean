import TreeQuery.Text.Blank

/-!
# Places in a YAML text

A cursor is the rest of a text with the line and column it starts at. YAML knows five line breaks;
all but the line and paragraph separators are read as a line feed.
-/

namespace TreeQuery.Yaml

def isPrintable (c : Char) : Bool :=
  let n := c.toNat
  n == 0x09 || n == 0x0a || n == 0x0d || (0x20 ≤ n && n ≤ 0x7e) || n == 0x85 ||
    (0xa0 ≤ n && n ≤ 0xd7ff) || (0xe000 ≤ n && n ≤ 0xfffd) || 0x10000 ≤ n

def isSpace (c : Char) : Bool := c == ' ' || c == '\t'

def isBreak (c : Char) : Bool :=
  c == '\n' || c == '\r' || c == '\u0085' || c == '\u2028' || c == '\u2029'

def endsWord (c : Option Char) : Bool := c.all fun c => isSpace c || isBreak c

def endsLine (c : Option Char) : Bool := c.all isBreak

structure Cursor where
  rest : List Char
  line : Nat
  column : Nat
  /-- The number of characters before. -/
  index : Nat
  deriving Inhabited

namespace Cursor

def peek (c : Cursor) (distance : Nat) : Option Char := c.rest[distance]?

/-- Passes over characters of one line. -/
def skip (c : Cursor) (count : Nat) : Cursor :=
  ⟨c.rest.drop count, c.line, c.column + count, c.index + count⟩

/-- Passes over a break and gives the text it stands for. -/
def takeBreak (c : Cursor) : List Char × Cursor :=
  match c.rest with
  | '\r' :: '\n' :: rest => (['\n'], ⟨rest, c.line + 1, 0, c.index + 2⟩)
  | b :: rest =>
    if b == '\u2028' || b == '\u2029' then ([b], ⟨rest, c.line + 1, 0, c.index + 1⟩)
    else if isBreak b then (['\n'], ⟨rest, c.line + 1, 0, c.index + 1⟩)
    else ([], c)
  | [] => ([], c)

/-- Passes over the characters that pass a test and gives them. -/
def takeWhile (c : Cursor) (p : Char → Bool) : List Char × Cursor :=
  let taken := c.rest.takeWhile p
  (taken, c.skip taken.length)

def skipSpaces (c : Cursor) : Cursor := (c.takeWhile isSpace).2

/-- Passes over what is left of a line if it is a comment. -/
def skipComment (c : Cursor) : Cursor :=
  if c.peek 0 == some '#' then (c.takeWhile fun ch => !isBreak ch).2 else c

/-- Whether a mark of three characters stands at the start of this line, by itself. -/
def atMark (c : Cursor) (mark : Char) : Bool :=
  c.column == 0 && c.rest.take 3 == [mark, mark, mark] && endsWord (c.peek 3)

def atDocumentMark (c : Cursor) : Bool := c.atMark '-' || c.atMark '.'

end Cursor

end TreeQuery.Yaml
