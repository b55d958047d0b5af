import TreeQuery.Tree.Fixture
import TreeQuery.Format.Yaml.Schema

/-!
# Fixtures as YAML texts

A text describes one node or a list of nodes. A node is a mapping of its fields or a sequence that
gives the first fields in their order. Fields that nodes do not have are passed over; a field that
occurs twice is refused.
-/

namespace TreeQuery

open Yaml

/-- The fields of a node, in the order in which a sequence gives them. -/
inductive FixtureField where
  | tag
  | id
  | className
  | attributes
  | text
  | children
  deriving Repr, DecidableEq, Inhabited

namespace FixtureField

def all : List FixtureField := [.tag, .id, .className, .attributes, .text, .children]

def ofName? (name : String) : Option FixtureField :=
  ["tag", "id", "class", "attrs", "text", "children"].idxOf? name >>= fun i => all[i]?

end FixtureField

inductive FixturePart where
  | word (content : Option String)
  | attributes (entries : List (String × String))
  | nodes (fixtures : List Fixture)
  deriving Inhabited

/-- A node from its fields; what is missing is empty. -/
def Fixture.ofParts (parts : List (FixtureField × FixturePart)) : Fixture :=
  let word (field : FixtureField) : Option String :=
    match parts.lookup field with
    | some (.word content) => content
    | _ => none
  let attributes := match parts.lookup .attributes with
    | some (.attributes entries) => entries
    | _ => []
  let children := match parts.lookup .children with
    | some (.nodes fixtures) => fixtures
    | _ => []
  .node (word .tag) (word .id) (word .className) attributes (word .text) children

namespace Yaml

def Value.toText? : Value → Option String
  | .scalar tag style text =>
    match Atom.ofScalar tag style text with
    | some (.text s) => some s
    | _ => none
  | _ => none

def Value.toWord? : Value → Option (Option String)
  | .scalar tag style text =>
    match Atom.ofScalar tag style text with
    | some (.text s) => some (some s)
    | some .null => some none
    | _ => none
  | _ => none

/-- The field that a key names, `none` inside for one that nodes do not have. A count stands for the
field at that place. -/
def Value.toField? : Value → Option (Option FixtureField)
  | .scalar tag style text =>
    match Atom.ofScalar tag style text with
    | some (.text name) => some (FixtureField.ofName? name)
    | some (.count n) => some FixtureField.all[n]?
    | _ => none
  | _ => none

/-- Puts an entry into a list ordered by name; it replaces one of the same name. -/
def putEntry (name value : String) : List (String × String) → List (String × String)
  | [] => [(name, value)]
  | (n, v) :: rest =>
    if name < n then (name, value) :: (n, v) :: rest
    else if name = n then (name, value) :: rest
    else (n, v) :: putEntry name value rest

/-- Attributes ordered by name; the last value of a name counts. -/
def Value.toAttributes? : Value → Option (List (String × String))
  | .mapping _ entries => entries.foldlM (fun found (k, v) => do
      return putEntry (← k.toText?) (← v.toText?) found) []
  | _ => none

/-- Whether a collection may have a tag: not one that only its writer knows. -/
def isKnownTag (tag : Option String) : Bool := !tag.any (·.startsWith "!")

mutual

/-- Whether every scalar of a value can be told and no more than `depth` collections stand within
one another. -/
def Value.isPlainData (depth : Nat) : Value → Bool
  | .scalar tag style text => (Atom.ofScalar tag style text).isSome
  | .sequence tag items => isKnownTag tag && depth != 0 && arePlainData (depth - 1) items
  | .mapping tag entries => isKnownTag tag && depth != 0 && areEntriesPlainData (depth - 1) entries

def arePlainData (depth : Nat) : List Value → Bool
  | [] => true
  | v :: rest => v.isPlainData depth && arePlainData depth rest

def areEntriesPlainData (depth : Nat) : List (Value × Value) → Bool
  | [] => true
  | (k, v) :: rest => k.isPlainData depth && v.isPlainData depth && areEntriesPlainData depth rest

end

mutual

def Value.toFixture? : Value → Option Fixture
  | .scalar .. => none
  | .sequence _ items => (rowParts? items FixtureField.all).map Fixture.ofParts
  | .mapping _ entries => do
    let parts ← namedParts? entries
    if (parts.map (·.1)).Nodup then some (Fixture.ofParts parts) else none

/-- What a value means as a certain field. -/
def Value.toPart? (field : FixtureField) : Value → Option FixturePart
  | v@(.sequence _ items) =>
    match field with
    | .children => (toFixtures? items).map .nodes
    | .attributes => v.toAttributes?.map .attributes
    | _ => v.toWord?.map .word
  | v =>
    match field with
    | .children => none
    | .attributes => v.toAttributes?.map .attributes
    | _ => v.toWord?.map .word

def toFixtures? : List Value → Option (List Fixture)
  | [] => some []
  | v :: rest => do return (← v.toFixture?) :: (← toFixtures? rest)

/-- Values for fields in their order; there must not be more values than fields. -/
def rowParts? : List Value → List FixtureField → Option (List (FixtureField × FixturePart))
  | [], _ => some []
  | _ :: _, [] => none
  | v :: rest, field :: fields => do
    return (field, ← v.toPart? field) :: (← rowParts? rest fields)

/-- The fields that nodes have among some entries. -/
def namedParts? : List (Value × Value) → Option (List (FixtureField × FixturePart))
  | [] => some []
  | (k, v) :: rest => do
    match ← k.toField? with
    | some field => return (field, ← v.toPart? field) :: (← namedParts? rest)
    | none => namedParts? rest

end

/-- The nodes that a value describes: a list of nodes if all its items are nodes, else one node. -/
def Value.toNodes? (v : Value) : Option (List Fixture) :=
  if v.isPlainData 128 then
    let single := v.toFixture?.map ([·])
    match v with
    | .sequence _ items => toFixtures? items <|> single
    | _ => single
  else none

end Yaml

def Fixture.ofYaml? (text : String) : Option (List Fixture) := do
  (← Yaml.read? text).bind Value.toNodes?

/-- A document that holds what a YAML text describes. -/
def Document.ofYaml (text : String) : Except SelectorError Document :=
  match Fixture.ofYaml? text with
  | some fixtures => Document.ofFixtures false fixtures
  | none => .error (.config (.unreadable "the fixture is no description of nodes"))

end TreeQuery
