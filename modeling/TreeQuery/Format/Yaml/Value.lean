import TreeQuery.Format.Yaml.Token

/-!
# Values of a YAML text

A document is a tree of scalars, sequences and mappings. An alias stands for a copy of the value
that was last given its name, which must be finished.
-/

namespace TreeQuery.Yaml

inductive Value where
  | scalar (tag : Option String) (style : Style) (text : String)
  | sequence (tag : Option String) (items : List Value)
  | mapping (tag : Option String) (entries : List (Value × Value))
  deriving Inhabited

def Value.missing : Value := .scalar none .plain ""

/-- What is left of the tokens, the values with names, and the handles of tags. -/
structure Parser where
  tokens : List Token
  anchors : List (String × Value)
  handles : List (String × String)

abbrev Parse (α : Type) := StateT Parser Option α

namespace Parse

def peek : Parse (Option Token) := do return (← get).tokens.head?

def next : Parse Unit := modify fun p => { p with tokens := p.tokens.drop 1 }

/-- Whether the next token is one of some; it stays. -/
def at? (tokens : List Token) : Parse Bool := do return (← peek).any tokens.contains

def accept (t : Token) : Parse Bool := do
  if (← peek) == some t then
    next
    return true
  else return false

def expect (t : Token) : Parse Unit := do
  unless ← accept t do failure

/-- The full name of a tag; its handle must be known. -/
def resolveTag (handle suffix : String) : Parse String := do
  if handle.isEmpty then return suffix
  match (← get).handles.lookup handle with
  | some start => return start ++ suffix
  | none => failure

/-- An anchor and a tag before a value, in either order. -/
def properties : Parse (Option String × Option String) := do
  let anchor : Parse (Option String) := do
    match ← peek with
    | some (.anchor name) =>
      next
      return some name
    | _ => return none
  let tag : Parse (Option String) := do
    match ← peek with
    | some (.tag handle suffix) =>
      next
      return some (← resolveTag handle suffix)
    | _ => return none
  match ← anchor with
  | some name => return (some name, ← tag)
  | none =>
    match ← tag with
    | some t => return (← anchor, some t)
    | none => return (none, none)

/-- Gives a finished value its name, or takes the name from a value that is not finished. -/
def define (name : Option String) (value : Option Value) : Parse Unit :=
  match name with
  | none => pure ()
  | some name => modify fun p =>
      let others := p.anchors.filter fun entry => entry.1 != name
      { p with anchors := (value.map fun v => (name, v)).toList ++ others }

mutual

/-- A value. Within brackets no block collection may start; the value of a mapping may be a sequence
that is not indented. -/
def value : Nat → (inBlock mayHang : Bool) → Parse Value
  | 0, _, _ => failure
  | bound + 1, inBlock, mayHang => do
    match ← peek with
    | some (.alias name) =>
      next
      match (← get).anchors.lookup name with
      | some v => return v
      | none => failure
    | _ =>
      let (anchor, tag) ← properties
      define anchor none
      let found ← content bound inBlock mayHang (anchor.isSome || tag.isSome) tag
      define anchor (some found)
      return found

/-- A value after its anchor and tag, which may stand alone. The tag that is a bare mark says
nothing about a scalar that is written. -/
def content : Nat → (inBlock mayHang mayMiss : Bool) → Option String → Parse Value
  | 0, _, _, _, _ => failure
  | bound + 1, inBlock, mayHang, mayMiss, tag => do
    match ← peek with
    | some (.scalar style text) =>
      next
      return .scalar (tag.filter (· != "!")) style text
    | some .flowSequenceStart =>
      next
      return .sequence tag (← flowItems bound true)
    | some .flowMappingStart =>
      next
      return .mapping tag (← flowEntries bound true)
    | some .blockEntry =>
      if mayHang then return .sequence tag (← hangingItems bound)
      else if mayMiss then return .scalar tag .plain ""
      else failure
    | some .blockSequenceStart =>
      if inBlock then
        next
        return .sequence tag (← blockItems bound)
      else if mayMiss then return .scalar tag .plain ""
      else failure
    | some .blockMappingStart =>
      if inBlock then
        next
        return .mapping tag (← blockEntries bound)
      else if mayMiss then return .scalar tag .plain ""
      else failure
    | _ => if mayMiss then return .scalar tag .plain "" else failure

/-- A value, or nothing before one of some tokens. -/
def valueUnless : Nat → List Token → (inBlock mayHang : Bool) → Parse Value
  | 0, _, _, _ => failure
  | bound + 1, stops, inBlock, mayHang => do
    if ← at? stops then return .missing else value bound inBlock mayHang

def blockItems : Nat → Parse (List Value)
  | 0 => failure
  | bound + 1 => do
    if ← accept .blockEntry then
      let item ← valueUnless bound [.blockEntry, .blockEnd] true false
      return item :: (← blockItems bound)
    else
      expect .blockEnd
      return []

/-- The items of a sequence that is not indented; it ends before any other token. -/
def hangingItems : Nat → Parse (List Value)
  | 0 => failure
  | bound + 1 => do
    if ← accept .blockEntry then
      let item ← valueUnless bound [.blockEntry, .key, .value, .blockEnd] true false
      return item :: (← hangingItems bound)
    else return []

def blockEntries : Nat → Parse (List (Value × Value))
  | 0 => failure
  | bound + 1 => do
    if ← accept .key then
      let k ← valueUnless bound [.key, .value, .blockEnd] true true
      let v ←
        if ← accept .value then valueUnless bound [.key, .value, .blockEnd] true true
        else pure .missing
      return (k, v) :: (← blockEntries bound)
    else
      expect .blockEnd
      return []

/-- The items of a sequence in brackets and the closing bracket. A key makes an item a mapping of
one entry. -/
def flowItems : Nat → (first : Bool) → Parse (List Value)
  | 0, _ => failure
  | bound + 1, first => do
    if ← accept .flowSequenceEnd then return []
    unless first do expect .flowEntry
    if ← accept .key then
      let k ← value bound false false
      let v ←
        if ← accept .value then valueUnless bound [.flowEntry, .flowSequenceEnd] false false
        else pure .missing
      return .mapping none [(k, v)] :: (← flowItems bound false)
    else if ← accept .flowSequenceEnd then return []
    else
      let item ← value bound false false
      return item :: (← flowItems bound false)

/-- The entries of a mapping in braces and the closing brace. -/
def flowEntries : Nat → (first : Bool) → Parse (List (Value × Value))
  | 0, _ => failure
  | bound + 1, first => do
    if ← accept .flowMappingEnd then return []
    unless first do expect .flowEntry
    if ← accept .key then
      let k ← valueUnless bound [.value, .flowEntry, .flowMappingEnd] false false
      let v ←
        if ← accept .value then valueUnless bound [.flowEntry, .flowMappingEnd] false false
        else pure .missing
      return (k, v) :: (← flowEntries bound false)
    else if ← accept .flowMappingEnd then return []
    else
      let k ← value bound false false
      return (k, .missing) :: (← flowEntries bound false)

end

/-- Directives and the mark that starts a document after them. -/
def directives : Nat → (version : Bool) → Parse Unit
  | 0, _ => failure
  | bound + 1, version => do
    match ← peek with
    | some (.versionDirective major minor) =>
      if version || major != 1 || (minor != 1 && minor != 2) then failure
      next
      directives bound true
    | some (.tagDirective handle start) =>
      if (← get).handles.any fun entry => entry.1 == handle then failure
      next
      modify fun p => { p with handles := (handle, start) :: p.handles }
      directives bound version
    | _ => expect .documentStart

def skipEnds : Nat → Parse Unit
  | 0 => failure
  | bound + 1 => do if ← accept .documentEnd then skipEnds bound else pure ()

/-- The one document of a text, or `none` for a text without one. A document may be empty only after
a mark that starts it. -/
def document (bound : Nat) : Parse (Option Value) := do
  let isMark : Token → Bool
    | .versionDirective _ _ | .tagDirective _ _ | .documentStart => true
    | _ => false
  match ← peek with
  | none => return none
  | some first =>
    if isMark first then directives bound false
    let standard := [("!", "!"), ("!!", "tag:yaml.org,2002:")]
    modify fun p =>
      let missing := standard.filter fun entry => (p.handles.lookup entry.1).isNone
      { p with handles := p.handles ++ missing }
    let missing := isMark first && (← peek).all fun t => isMark t || t == .documentEnd
    let v ← if missing then pure .missing else value bound true false
    skipEnds bound
    if (← peek).isSome then failure
    return some v

end Parse

/-- The value of a YAML text that holds one document; `none` inside for a text without any. -/
def read? (text : String) : Option (Option Value) := do
  let tokens ← tokens? text.toList
  let (value, _) ← (Parse.document (4 * tokens.length + 8)).run ⟨tokens, [], []⟩
  return value

end TreeQuery.Yaml
