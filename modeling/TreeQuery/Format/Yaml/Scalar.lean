import TreeQuery.Format.Yaml.Cursor

/-!
# Scalars as they are written

Plain scalars, scalars in quotes and block scalars. Between two pieces of a scalar that runs over
several lines, spaces around a break go, one break becomes a space, and further breaks stay. A block
scalar keeps its lines, or folds them if it says so.
-/

namespace TreeQuery.Yaml

inductive Style where
  | plain
  | quoted
  /-- A block that keeps its lines. -/
  | literal
  /-- A block that folds its lines. -/
  | folded
  deriving Repr, DecidableEq, Inhabited

/-- What stands between two pieces of a scalar. -/
structure Gap where
  /-- The spaces before any break, last one first. -/
  spaces : List Char
  firstBreak : Option (List Char)
  laterBreaks : List Char

namespace Gap

def empty : Gap := ⟨[], none, []⟩

def folded (g : Gap) : List Char :=
  match g.firstBreak with
  | none => g.spaces.reverse
  | some ['\n'] => if g.laterBreaks.isEmpty then [' '] else g.laterBreaks
  | some first => first ++ g.laterBreaks

end Gap

/-- Passes over spaces and breaks. After a break no tab may stand before column `margin`. -/
def takeGap (margin : Int) : Nat → Gap → Cursor → Option (Gap × Cursor)
  | 0, g, c => some (g, c)
  | bound + 1, g, c =>
    match c.peek 0 with
    | none => some (g, c)
    | some ch =>
      if isSpace ch then
        if g.firstBreak.isSome then
          if ch == '\t' && (c.column : Int) < margin then none
          else takeGap margin bound g (c.skip 1)
        else takeGap margin bound { g with spaces := ch :: g.spaces } (c.skip 1)
      else if isBreak ch then
        let (text, c) := c.takeBreak
        match g.firstBreak with
        | none => takeGap margin bound { g with spaces := [], firstBreak := some text } c
        | some _ => takeGap margin bound { g with laterBreaks := g.laterBreaks ++ text } c
      else some (g, c)

/-! ## Plain scalars -/

def isFlowSign (c : Char) : Bool :=
  c == ',' || c == '[' || c == ']' || c == '{' || c == '}'

/-- The characters of a plain scalar up to a space, a break or a sign that ends it. Within brackets
a colon must not stand before a sign. -/
def plainWord (inFlow : Bool) : List Char → Option (List Char)
  | [] => some []
  | ch :: rest =>
    if isSpace ch || isBreak ch then some []
    else if inFlow && ch == ':' && rest.head?.any (fun n => isFlowSign n || n == '?') then none
    else if ch == ':' && endsWord rest.head? then some []
    else if inFlow && isFlowSign ch then some []
    else (plainWord inFlow rest).map (ch :: ·)

/-- A plain scalar after `text` and a gap: its text, whether a break follows it, and the cursor
after it. Outside of brackets it ends before a line that is not indented up to `margin`. -/
def plainScalar (inFlow : Bool) (margin : Int) : Nat → Gap → List Char → Cursor →
    Option (List Char × Bool × Cursor)
  | 0, _, _, _ => none
  | bound + 1, gap, text, c =>
    if c.atDocumentMark || c.peek 0 == some '#' then some (text, gap.firstBreak.isSome, c)
    else
      match plainWord inFlow c.rest with
      | none => none
      | some [] => some (text, gap.firstBreak.isSome, c)
      | some word =>
        let text := text ++ gap.folded ++ word
        let c := c.skip word.length
        match takeGap margin (c.rest.length + 1) .empty c with
        | none => none
        | some (gap, after) =>
          if after.index = c.index then some (text, false, c)
          else if !inFlow && (after.column : Int) < margin then
            some (text, gap.firstBreak.isSome, after)
          else plainScalar inFlow margin bound gap text after

/-! ## Quoted scalars -/

def escapeLetter? (c : Char) : Option Char :=
  match c with
  | '0' => some '\x00'
  | 'a' => some '\x07'
  | 'b' => some '\x08'
  | 't' => some '\t'
  | '\t' => some '\t'
  | 'n' => some '\n'
  | 'v' => some '\x0b'
  | 'f' => some '\x0c'
  | 'r' => some '\r'
  | 'e' => some '\x1b'
  | ' ' => some ' '
  | '"' => some '"'
  | '/' => some '/'
  | '\\' => some '\\'
  | 'N' => some '\u0085'
  | '_' => some '\u00a0'
  | 'L' => some '\u2028'
  | 'P' => some '\u2029'
  | _ => none

def escapeWidth? (c : Char) : Option Nat :=
  match c with
  | 'x' => some 2
  | 'u' => some 4
  | 'U' => some 8
  | _ => none

/-- The character that stands after a backslash, and how many characters it takes. -/
def escapedChar? (text : List Char) : Option (Char × Nat) :=
  match text with
  | [] => none
  | c :: rest =>
    match escapeWidth? c with
    | none => (escapeLetter? c).map fun e => (e, 1)
    | some width =>
      let digits := rest.take width
      let code := hexNumber digits
      if digits.length = width ∧ digits.all isHexDigit ∧ code.isValidChar then
        some (Char.ofNat code, width + 1)
      else none

/-- Characters of a quoted scalar up to a space, a break or the closing quote, and whether an
escaped break ends them. -/
def quotedWord (single : Bool) : Nat → Cursor → Option (List Char × Bool × Cursor)
  | 0, _ => none
  | bound + 1, c =>
    match c.rest with
    | [] => some ([], false, c)
    | ch :: rest =>
      if isSpace ch || isBreak ch then some ([], false, c)
      else if single && ch == '\'' then
        if rest.head? == some '\'' then
          (quotedWord single bound (c.skip 2)).map fun (word, broken, c) =>
            ('\'' :: word, broken, c)
        else some ([], false, c)
      else if !single && ch == '"' then some ([], false, c)
      else if !single && ch == '\\' then
        if rest.head?.any isBreak then some ([], true, (c.skip 1).takeBreak.2)
        else
          match escapedChar? rest with
          | none => none
          | some (e, taken) =>
            (quotedWord single bound (c.skip (taken + 1))).map fun (word, broken, c) =>
              (e :: word, broken, c)
      else (quotedWord single bound (c.skip 1)).map fun (word, broken, c) => (ch :: word, broken, c)

def quotedScalar (single : Bool) : Nat → List Char → Cursor → Option (List Char × Cursor)
  | 0, _, _ => none
  | bound + 1, text, c =>
    if c.atDocumentMark || c.rest.isEmpty then none
    else
      match quotedWord single (c.rest.length + 1) c with
      | none => none
      | some (word, broken, c) =>
        let text := text ++ word
        if !broken && c.peek 0 == some (if single then '\'' else '"') then some (text, c.skip 1)
        else
          let start : Gap := if broken then { Gap.empty with firstBreak := some [] } else .empty
          match takeGap (-1) (c.rest.length + 1) start c with
          | none => none
          | some (gap, c) => quotedScalar single bound (text ++ gap.folded) c

/-! ## Block scalars -/

/-- What happens to the breaks at the end of a block scalar. -/
inductive Chomping where
  | strip
  | clip
  | keep
  deriving DecidableEq

def chomping? (c : Option Char) : Option Chomping :=
  match c with
  | some '+' => some .keep
  | some '-' => some .strip
  | _ => none

/-- A digit for the indentation; zero is refused. -/
def indentation? (c : Option Char) : Option (Option Nat) :=
  match c with
  | some d => if d.isDigit then (if d == '0' then none else some (some (hexValue d))) else some none
  | none => some none

/-- The header of a block scalar after its sign: chomping and indentation in either order. -/
def blockHeader? (c : Cursor) : Option (Chomping × Option Nat × Cursor) := do
  match chomping? (c.peek 0) with
  | some chomping =>
    let c := c.skip 1
    match ← indentation? (c.peek 0) with
    | some n => return (chomping, some n, c.skip 1)
    | none => return (chomping, none, c)
  | none =>
    match ← indentation? (c.peek 0) with
    | some n =>
      let c := c.skip 1
      match chomping? (c.peek 0) with
      | some chomping => return (chomping, some n, c.skip 1)
      | none => return (.clip, some n, c)
    | none => return (.clip, none, c)

/-- Passes over empty lines: their breaks, the largest column met, and the cursor on the first line
that is not empty. `indent` is zero while the indentation is not known. -/
def emptyLines (indent : Nat) : Nat → Nat → List Char → Cursor → Option (List Char × Nat × Cursor)
  | 0, _, _, _ => none
  | bound + 1, widest, breaks, c =>
    let spaces := (c.rest.takeWhile (· == ' ')).length
    let c := c.skip (if indent = 0 then spaces else min spaces (indent - c.column))
    let widest := max widest c.column
    if (indent = 0 ∨ c.column < indent) ∧ c.peek 0 = some '\t' then none
    else if (c.peek 0).any isBreak then
      let (text, c) := c.takeBreak
      emptyLines indent bound widest (breaks ++ text) c
    else some (breaks, widest, c)

/-- The part of a block scalar that has been read. -/
structure BlockText where
  text : List Char
  /-- The break after the last line. -/
  lastBreak : List Char
  /-- The breaks of the empty lines after it. -/
  emptyBreaks : List Char
  /-- Whether the last line started with a space. -/
  spaced : Bool

/-- Reads the lines of a block scalar that stand at its indentation. -/
def blockLines (folded : Bool) (indent : Nat) : Nat → BlockText → Cursor →
    Option (BlockText × Cursor)
  | 0, _, _ => none
  | bound + 1, b, c =>
    if c.column ≠ indent ∨ c.rest.isEmpty then some (b, c)
    else
      let spaced := (c.peek 0).any isSpace
      let joint :=
        if folded && b.lastBreak == ['\n'] && !b.spaced && !spaced then
          if b.emptyBreaks.isEmpty then [' '] else []
        else b.lastBreak
      let (line, c) := c.takeWhile fun ch => !isBreak ch
      let (lastBreak, c) := c.takeBreak
      match emptyLines indent (c.rest.length + 1) 0 [] c with
      | none => none
      | some (emptyBreaks, _, c) =>
        blockLines folded indent bound
          ⟨b.text ++ joint ++ b.emptyBreaks ++ line, lastBreak, emptyBreaks, spaced⟩ c

/-- A block scalar after its sign. `parentIndent` is the indentation of the collection around it. -/
def blockScalar (folded : Bool) (parentIndent : Int) (c : Cursor) :
    Option (List Char × Cursor) := do
  let (chomping, increment, c) ← blockHeader? c
  let c := c.skipSpaces.skipComment
  if !endsLine (c.peek 0) then none
  else
    let c := c.takeBreak.2
    let given : Nat := match increment with
      | some n => (if 0 ≤ parentIndent then parentIndent + n else (n : Int)).toNat
      | none => 0
    let (breaks, widest, c) ← emptyLines given (c.rest.length + 1) 0 [] c
    let indent := if given = 0 then max (max widest (parentIndent + 1).toNat) 1 else given
    let (b, c) ← blockLines folded indent (c.rest.length + 1) ⟨[], [], breaks, false⟩ c
    return match chomping with
      | .strip => (b.text, c)
      | .clip => (b.text ++ b.lastBreak, c)
      | .keep => (b.text ++ b.lastBreak ++ b.emptyBreaks, c)

end TreeQuery.Yaml
