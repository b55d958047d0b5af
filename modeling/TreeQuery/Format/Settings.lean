import TreeQuery.Format.Datum
import TreeQuery.Format.Json
import TreeQuery.Format.Yaml.Schema

/-!
# Settings as texts

Settings are read from JSON and YAML and written as YAML. Settings that an engine cannot run with
are refused when they are read, but not when they are written.
-/

namespace TreeQuery

namespace Yaml

/-- The name that a key gives: how it is written, whatever it stands for. -/
def Value.toName? : Value → Option String
  | .scalar _ _ text => some text
  | _ => none

/-- A scalar as settings see it. A plain scalar that is empty stands for settings that leave
everything open; a literal block counts if a tag says what it is. -/
def scalarDatum (tag : Option String) (style : Style) (text : String) : Datum :=
  let number : Option Datum := ((count? text.toList).filter (· ≤ maxUnsigned)).map .count
  let onOff : Option Datum := (switch? text).map .switch
  let found : Option Datum := match style with
    | .plain => if text.isEmpty then some (.fields []) else onOff <|> number
    | .literal =>
      if tag = some (typeTag "int") then number
      else if tag = some (typeTag "bool") then onOff
      else none
    | _ => none
  found.getD .other

mutual

def Value.toDatum : Value → Datum
  | .scalar tag style text => scalarDatum tag style text
  | .sequence .. => .other
  | .mapping _ entries => .fields (entryData entries)

def entryData : List (Value × Value) → List (Option String × Datum)
  | [] => []
  | (k, v) :: rest => (k.toName?, v.toDatum) :: entryData rest

end

end Yaml

namespace Settings

def ofRead (found : Option Datum) : Except SelectorError Settings :=
  match found.bind ofDatum with
  | some settings => settings.checked
  | none => .error (.config (.unreadable "the text holds no settings"))

def ofJson (text : String) : Except SelectorError Settings :=
  ofRead (Json.read? text)

/-- Settings from a YAML text; a text without a document leaves everything open. -/
def ofYaml (text : String) : Except SelectorError Settings :=
  ofRead ((Yaml.read? text).map fun found => (found.getD .missing).toDatum)

/-- What follows the last point of a file name, unless that point is its first character. -/
def fileExtension? (name : String) : Option String :=
  let last := (name.splitOn "/").getLast?.getD ""
  match (last.splitOn ".").reverse with
  | ending :: stem :: more => if stem.isEmpty && more.isEmpty then none else some ending
  | _ => none

/-- Settings from the bytes of a file, `none` if there is no such file. A file is read as JSON if
its name says so, else as YAML. -/
def ofFile (name : String) (content : Option ByteArray) : Except SelectorError Settings :=
  match content.bind String.fromUTF8? with
  | none => .error (.config (.unreadable ("cannot read " ++ name)))
  | some text =>
    if (fileExtension? name).any (equalFolded · "json") then ofJson text else ofYaml text

def toYaml (s : Settings) : String :=
  let c := s.cache
  let e := s.execution
  String.intercalate "\n" [
    "cache:",
    s!"  token_capacity: {c.tokens}",
    s!"  compiled_capacity: {c.compiled}",
    s!"  class_capacity: {c.classes}",
    "execution:",
    s!"  enable_fast_path: {e.fastPath}",
    s!"  enable_native_select: {e.nativeSelect}",
    s!"  enable_seed_narrowing: {e.seedNarrowing}",
    s!"  enable_walk_cache: {e.walkCache}",
    s!"  walk_table_limit: {e.walkTableLimit}",
    ""]

end Settings

end TreeQuery
