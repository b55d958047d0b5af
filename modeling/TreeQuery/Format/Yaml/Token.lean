import TreeQuery.Format.Yaml.Scalar

/-!
# Tokens of a YAML text

Indentation becomes tokens of its own: a collection written in block style starts where a line
stands further to the right than the collection around it, and ends where a line stands further to
the left. A mapping key is noticed only when its colon is met, so the places where one may start are
remembered until then.
-/

namespace TreeQuery.Yaml

inductive Token where
  | versionDirective (major minor : Nat)
  | tagDirective (handle start : String)
  | documentStart
  | documentEnd
  | blockSequenceStart
  | blockMappingStart
  | blockEnd
  | flowSequenceStart
  | flowSequenceEnd
  | flowMappingStart
  | flowMappingEnd
  | blockEntry
  | flowEntry
  | key
  | value
  | alias (name : String)
  | anchor (name : String)
  | tag (handle suffix : String)
  | scalar (style : Style) (text : String)
  deriving DecidableEq, Inhabited

/-- A place where a mapping key may have started. -/
structure KeyPlace where
  required : Bool
  /-- The number of tokens before it. -/
  token : Nat
  start : Cursor

/-- What is left to read and what has been read. -/
structure Reader where
  cursor : Cursor
  tokens : Array Token
  /-- The column of the innermost block collection; -1 outside of all. -/
  indent : Int
  outer : List Int
  keyAllowed : Bool
  /-- The last possible key at this level of brackets. -/
  possible : Option KeyPlace
  /-- The last possible keys at the levels around it. -/
  enclosing : List (Option KeyPlace)

namespace Reader

def inFlow (r : Reader) : Bool := !r.enclosing.isEmpty

def push (r : Reader) (t : Token) : Reader := { r with tokens := r.tokens.push t }

def skip (r : Reader) (count : Nat) : Reader := { r with cursor := r.cursor.skip count }

/-- Passes over spaces, comments and breaks. A tab counts as a space where it cannot be taken for
indentation. -/
def skipBlank : Nat → Reader → Reader
  | 0, r => r
  | bound + 1, r =>
    let c := r.cursor
    let c := if c.column == 0 && c.peek 0 == some '\ufeff' then c.skip 1 else c
    let c := (c.takeWhile fun ch => ch == ' ' || ((r.inFlow || !r.keyAllowed) && ch == '\t')).2
    let c := c.skipComment
    if (c.peek 0).any isBreak then
      skipBlank bound { r with cursor := c.takeBreak.2, keyAllowed := r.keyAllowed || !r.inFlow }
    else { r with cursor := c }

/-- Whether a key place can no longer be one: a key stands on one line and is not long. -/
def isStale (k : KeyPlace) (c : Cursor) : Bool :=
  k.start.line < c.line || k.start.index + 1024 < c.index

/-- Gives up the possible key at this level; `none` if only a key could stand there. -/
def dropKey (r : Reader) : Option Reader :=
  if r.possible.any (·.required) then none else some { r with possible := none }

def dropStale (r : Reader) : Option Reader := do
  let check (k : Option KeyPlace) : Option (Option KeyPlace) :=
    match k with
    | some place =>
      if !isStale place r.cursor then some k
      else if place.required then none
      else some none
    | none => some none
  return { r with possible := ← check r.possible, enclosing := ← r.enclosing.mapM check }

def markKey (r : Reader) : Option Reader :=
  if r.keyAllowed then do
    let r ← r.dropKey
    let required := !r.inFlow && r.indent == r.cursor.column
    return { r with possible := some ⟨required, r.tokens.size, r.cursor⟩ }
  else some r

/-- Starts a block collection at a column, with its token at a place among the tokens. -/
def indentTo (r : Reader) (column : Nat) (place : Nat) (start : Token) : Reader :=
  if !r.inFlow && r.indent < column then
    { r with
      outer := r.indent :: r.outer
      indent := column
      tokens := r.tokens.insertIdxIfInBounds place start }
  else r

/-- Ends the block collections that stand to the right of a column. -/
def unindentTo (r : Reader) (column : Int) : Reader :=
  if r.inFlow then r else go r r.outer
where
  go (r : Reader) : List Int → Reader
    | [] => r
    | indent :: outer =>
      if column < r.indent then go ({ r with indent, outer }.push .blockEnd) outer else r

/-! ## Tokens of one sign -/

def documentMark (r : Reader) (t : Token) : Option Reader := do
  let r ← (r.unindentTo (-1)).dropKey
  return ({ r with keyAllowed := false }.skip 3).push t

def openFlow (r : Reader) (t : Token) : Option Reader := do
  let r ← r.markKey
  let enclosing := r.possible :: r.enclosing
  return ({ r with keyAllowed := true, possible := none, enclosing }.skip 1).push t

def closeFlow (r : Reader) (t : Token) : Option Reader := do
  let r ← r.dropKey
  let r := match r.enclosing with
    | [] => r
    | possible :: enclosing => { r with possible, enclosing }
  return ({ r with keyAllowed := false }.skip 1).push t

def flowEntry (r : Reader) : Option Reader := do
  let r ← r.dropKey
  return ({ r with keyAllowed := true }.skip 1).push .flowEntry

def blockEntry (r : Reader) : Option Reader := do
  if !r.inFlow && !r.keyAllowed then none
  else
    let r ← (r.indentTo r.cursor.column r.tokens.size .blockSequenceStart).dropKey
    return ({ r with keyAllowed := true }.skip 1).push .blockEntry

def explicitKey (r : Reader) : Option Reader := do
  if !r.inFlow && !r.keyAllowed then none
  else
    let r ← (r.indentTo r.cursor.column r.tokens.size .blockMappingStart).dropKey
    return ({ r with keyAllowed := !r.inFlow }.skip 1).push .key

/-- A colon makes the possible key before it a key. -/
def colon (r : Reader) : Option Reader :=
  match r.possible with
  | some k =>
    let r := { r with tokens := r.tokens.insertIdxIfInBounds k.token .key }
    let r := r.indentTo k.start.column k.token .blockMappingStart
    some (({ r with possible := none, keyAllowed := false }.skip 1).push .value)
  | none =>
    if !r.inFlow && !r.keyAllowed then none
    else
      let r := r.indentTo r.cursor.column r.tokens.size .blockMappingStart
      some (({ r with keyAllowed := !r.inFlow }.skip 1).push .value)

/-! ## Names and tags -/

def isNameChar (c : Char) : Bool := c.isAlphanum || c == '_' || c == '-'

def named (r : Reader) (token : String → Token) : Option Reader := do
  let r ← r.markKey
  let (name, c) := (r.cursor.skip 1).takeWhile isNameChar
  let mayFollow := endsWord (c.peek 0) || (c.peek 0).any fun ch => "?:,]\x7d%@`".toList.contains ch
  if name.isEmpty || !mayFollow then none
  else return { r with cursor := c, keyAllowed := false }.push (token (String.ofList name))

def isTagChar (c : Char) : Bool :=
  isNameChar c || ";/?:@&=+$.%!~*'()".toList.contains c

/-- The characters of a tag that is written in full, and of what a handle stands for. -/
def isUriChar (c : Char) : Bool :=
  isTagChar c || c == ',' || c == '[' || c == ']'

/-- A tag with its escapes by code resolved; `none` if one is broken or stands for no ASCII
character. -/
def tagText? : List Char → Option (List Char)
  | '%' :: a :: b :: rest =>
    let code := hexNumber [a, b]
    if isHexDigit a && isHexDigit b && code < 128 then (tagText? rest).map (Char.ofNat code :: ·)
    else none
  | '%' :: _ => none
  | c :: rest => (tagText? rest).map (c :: ·)
  | [] => some []

/-- The handle and the suffix of a tag, and the cursor after it. -/
def splitTag (c : Cursor) : Option (String × String × Cursor) :=
  if c.peek 1 == some '<' then do
    let (uri, c) := (c.skip 2).takeWhile isUriChar
    if uri.isEmpty || c.peek 0 != some '>' then none
    else return ("", String.ofList (← tagText? uri), c.skip 1)
  else do
    let (name, after) := (c.skip 1).takeWhile isNameChar
    if after.peek 0 == some '!' then
      let (uri, c) := (after.skip 1).takeWhile isTagChar
      if uri.isEmpty then none
      else return (String.ofList ('!' :: name ++ ['!']), String.ofList (← tagText? uri), c)
    else
      let (uri, c) := after.takeWhile isTagChar
      let suffix := String.ofList (name ++ (← tagText? uri))
      return if suffix.isEmpty then ("", "!", c) else ("!", suffix, c)

def tag (r : Reader) : Option Reader := do
  let r ← r.markKey
  let (handle, suffix, c) ← splitTag r.cursor
  if endsWord (c.peek 0) || (r.inFlow && c.peek 0 == some ',') then
    return { r with cursor := c, keyAllowed := false }.push (.tag handle suffix)
  else none

/-! ## Directives -/

def versionPart? (c : Cursor) : Option (Nat × Cursor) :=
  let (digits, c) := c.takeWhile Char.isDigit
  if digits.isEmpty || 9 < digits.length then none
  else some (digits.foldl (fun n d => 10 * n + hexValue d) 0, c)

/-- A directive; those that are not known are refused. -/
def directive (r : Reader) : Option Reader := do
  let r ← (r.unindentTo (-1)).dropKey
  let (name, c) := (r.cursor.skip 1).takeWhile isNameChar
  let c := c.skipSpaces
  let (token, c) ←
    if name == "YAML".toList then do
      let (major, c) ← versionPart? c
      if c.peek 0 != some '.' then none
      else
        let (minor, c) ← versionPart? (c.skip 1)
        some (Token.versionDirective major minor, c)
    else if name == "TAG".toList then do
      let (word, c) := c.takeWhile fun ch => !isSpace ch && !isBreak ch
      let (start, c) := c.skipSpaces.takeWhile isUriChar
      let inner := (word.drop 1).takeWhile isNameChar
      if !(word == ['!'] || word == '!' :: inner ++ ['!']) || start.isEmpty then none
      else some (Token.tagDirective (String.ofList word) (String.ofList (← tagText? start)), c)
    else none
  let c := c.skipSpaces.skipComment
  if !endsLine (c.peek 0) then none
  else return { r with cursor := c.takeBreak.2, keyAllowed := false }.push token

/-! ## Scalars -/

def block (r : Reader) (folded : Bool) : Option Reader := do
  let r ← r.dropKey
  let (text, c) ← blockScalar folded r.indent (r.cursor.skip 1)
  return { r with cursor := c, keyAllowed := true }.push
    (.scalar (if folded then .folded else .literal) (String.ofList text))

def quoted (r : Reader) (single : Bool) : Option Reader := do
  let r ← r.markKey
  let c := r.cursor.skip 1
  let (text, c) ← quotedScalar single (c.rest.length + 2) [] c
  return { r with cursor := c, keyAllowed := false }.push (.scalar .quoted (String.ofList text))

def plain (r : Reader) : Option Reader := do
  let r ← r.markKey
  let c := r.cursor
  let (text, broken, c) ← plainScalar r.inFlow (r.indent + 1) (c.rest.length + 1) .empty [] c
  return { r with cursor := c, keyAllowed := broken }.push (.scalar .plain (String.ofList text))

/-! ## The next token -/

/-- Whether a plain scalar may start with a character before another. -/
def startsPlain (inFlow : Bool) (c : Char) (next : Option Char) : Bool :=
  if c == '-' then !next.any isSpace
  else if c == '?' || c == ':' then !inFlow && !endsWord next
  else !isSpace c && !isBreak c && !(",[]\x7b\x7d#&*!|>'\"%@`".toList.contains c)

/-- Reads what starts at the cursor, which stands on a character. -/
def token (r : Reader) (ch : Char) : Option Reader :=
  let c := r.cursor
  let next := c.peek 1
  if c.column == 0 && ch == '%' then r.directive
  else if c.atMark '-' then r.documentMark .documentStart
  else if c.atMark '.' then r.documentMark .documentEnd
  else if ch == '[' then r.openFlow .flowSequenceStart
  else if ch == '{' then r.openFlow .flowMappingStart
  else if ch == ']' then r.closeFlow .flowSequenceEnd
  else if ch == '}' then r.closeFlow .flowMappingEnd
  else if ch == ',' then r.flowEntry
  else if ch == '-' && endsWord next then r.blockEntry
  else if ch == '?' && (r.inFlow || endsWord next) then r.explicitKey
  else if ch == ':' && (r.inFlow || endsWord next) then r.colon
  else if ch == '*' then r.named .alias
  else if ch == '&' then r.named .anchor
  else if ch == '!' then r.tag
  else if ch == '|' && !r.inFlow then r.block false
  else if ch == '>' && !r.inFlow then r.block true
  else if ch == '\'' then r.quoted true
  else if ch == '"' then r.quoted false
  else if startsPlain r.inFlow ch next then r.plain
  else none

def readAll : Nat → Reader → Option Reader
  | 0, _ => none
  | bound + 1, r => do
    let r ← (skipBlank (r.cursor.rest.length + 1) r).dropStale
    match r.cursor.rest with
    | [] => (r.unindentTo (-1)).dropKey
    | ch :: _ => readAll bound (← (r.unindentTo r.cursor.column).token ch)

end Reader

/-- The tokens of a text; `none` if it is no YAML. -/
def tokens? (text : List Char) : Option (List Token) := do
  let text := match text with
    | '\ufeff' :: rest => rest
    | text => text
  if text.all isPrintable then
    let start : Reader := ⟨⟨text, 0, 0, 0⟩, #[], -1, [], true, none, []⟩
    let r ← Reader.readAll (text.length + 1) start
    return r.tokens.toList
  else none

end TreeQuery.Yaml
