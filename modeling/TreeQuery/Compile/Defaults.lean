import TreeQuery.Text.Numeral
import TreeQuery.Selector.Escape
import TreeQuery.Compile.Registry

/-!
# The pseudo-classes that are always there

Questions about content and form controls, selectors within selectors, texts and languages, and
places in the row of candidates. The names of form controls are compared without regard to case in
XML too.
-/

namespace TreeQuery

namespace Document

/-- Whether an element has a tag, whatever its case. -/
def isTagged (d : Document) (n : NodeId) (tag : String) : Bool := d.hasTag false n tag

/-- Whether a node has neither elements nor texts for children. -/
def isEmpty (d : Document) (n : NodeId) : Bool :=
  (seek d.nextSibling (fun c => d.isElement c || d.isText c) d.size (d.firstChild n)).isNone

/-- Whether the attribute `type` has a value, whatever its case. -/
def hasType (d : Document) (n : NodeId) (kind : String) : Bool :=
  (d.attribute? n "type").any fun value => equalFolded value kind

def hasAttribute (d : Document) (n : NodeId) (name : String) : Bool :=
  (d.attribute? n name).isSome

/-- Whether the tag is the letter `h` with one digit. -/
def isHeader (d : Document) (n : NodeId) : Bool :=
  (d.localName n).any fun name =>
    match name.toList with
    | [h, digit] => h.toLower == 'h' && digit.isDigit
    | _ => false

def isSelected (d : Document) (n : NodeId) : Bool :=
  d.isTagged n "option" && d.hasAttribute n "selected"

def formControls : List String :=
  ["input", "button", "select", "textarea", "option", "optgroup", "fieldset"]

def isFormControl (d : Document) (n : NodeId) : Bool :=
  formControls.any (d.isTagged n)

def firstTagged (d : Document) (parent : NodeId) (tag : String) : Option NodeId :=
  seek d.nextSibling (fun c => d.isElement c && d.isTagged c tag) d.size (d.firstChild parent)

/-- Whether a disabled fieldset stands above. `below` is the element through which the walk came
up; a fieldset does not disable what is in its first legend. -/
def isFenced (d : Document) : Nat → NodeId → Option NodeId → Bool
  | _, _, none => false
  | 0, _, some _ => false
  | bound + 1, below, some a =>
    (d.isTagged a "fieldset" && d.hasAttribute a "disabled" &&
        d.firstTagged a "legend" != some below) ||
      d.isFenced bound a (d.parentElement a)

/-- Whether a form control is disabled: by itself, as an option of a disabled group, or by a
fieldset. -/
def isDisabled (d : Document) (n : NodeId) : Bool :=
  if d.hasAttribute n "disabled" then true
  else if d.isTagged n "option" then
    (d.parentElement n).any fun p => d.isTagged p "optgroup" && d.hasAttribute p "disabled"
  else if d.isTagged n "optgroup" then false
  else d.isFenced d.size n (d.parentElement n)

/-- The language that is declared closest to an element, on itself or above it. -/
def language (d : Document) (xml : Bool) (n : NodeId) : Option String :=
  let declared (n : NodeId) : Option String :=
    let value :=
      if xml then (d.attribute? n "xml:lang").or (d.attribute? n "lang") else d.attribute? n "lang"
    value.filter fun v => !v.isEmpty
  (seek d.parentElement (fun a => (declared a).isSome) d.size (some n)).bind declared

end Document

/-- The pseudo-classes that take no argument. -/
def predicates : List (String × (Document → NodeId → Bool)) :=
  let input (kind : String) (d : Document) (n : NodeId) : Bool :=
    d.isTagged n "input" && d.hasType n kind
  let inputOrButton (kind : String) (d : Document) (n : NodeId) : Bool :=
    (d.isTagged n "input" || d.isTagged n "button") && d.hasType n kind
  [("root", fun d n => !(d.parent n).any d.isElement),
    ("empty", fun d n => d.isEmpty n),
    ("parent", fun d n => !d.isEmpty n),
    ("header", fun d n => d.isHeader n),
    ("input", fun d n => ["input", "select", "textarea", "button"].any (d.isTagged n)),
    ("button", fun d n => d.isTagged n "button" || input "button" d n),
    ("text", fun d n =>
      d.isTagged n "input" && (!d.hasAttribute n "type" || d.hasType n "text")),
    ("checked", fun d n =>
      (d.isTagged n "input" && d.hasAttribute n "checked") || d.isSelected n),
    ("selected", fun d n => d.isSelected n),
    ("enabled", fun d n => d.isFormControl n && !d.isDisabled n),
    ("disabled", fun d n => d.isFormControl n && d.isDisabled n),
    ("radio", input "radio"),
    ("checkbox", input "checkbox"),
    ("file", input "file"),
    ("password", input "password"),
    ("image", input "image"),
    ("submit", inputOrButton "submit"),
    ("reset", inputOrButton "reset")]

/-- Goes on with an argument that must be there. -/
def withArgument (name : String) (next : String → Recipe) : Option String → Recipe
  | some argument => next argument
  | none => .reject (.unrecognized (":" ++ name))

def negationRecipe : Option String → Recipe :=
  withArgument "not" fun argument => .compile argument fun selector => .ready <|
    match selector.elementTest with
    | some t => .test (.negation t)
    | none => .set (.members selector false)

def membershipRecipe : Option String → Recipe :=
  withArgument "is" fun argument => .compile argument fun selector => .ready <|
    match selector.elementTest with
    | some t => .test t
    | none => .set (.members selector true)

def hasRecipe : Option String → Recipe :=
  withArgument "has" fun argument => .compile argument fun selector =>
    .ready (.test (.has selector))

def containsRecipe : Option String → Recipe :=
  withArgument "contains" fun argument =>
    let part := unescape argument.toList
    .ready (.test (.check fun s n => occursIn part (s.document.textContent n).toList))

/-- Whether a declared language is the wanted one or a variety of it. -/
def speaks (wanted value : String) : Bool :=
  let value := value.toLower
  value == wanted || (wanted ++ "-").toList.isPrefixOf value.toList

def langRecipe (argument : Option String) : Recipe :=
  let raw := argument.getD ""
  if isIdentifier raw.toList then
    let wanted := (String.ofList (unescape raw.toList)).toLower
    .ready (.test (.check fun s n => (s.document.language s.xml n).any (speaks wanted)))
  else .reject (.unsupportedLang raw)

/-- The members at even places, counted from zero. -/
def evenPlaces : List NodeId → List NodeId
  | [] => []
  | [a] => [a]
  | a :: _ :: rest => a :: evenPlaces rest

/-- The place that an index names in a row of a given length; negative indexes count from the
end. -/
def placeOf (n : Int) (length : Nat) : Int :=
  if n < 0 then n + length else n

def takeBefore (n : Int) (seed : List NodeId) : List NodeId :=
  seed.take (placeOf n seed.length).toNat

def dropThrough (n : Int) (seed : List NodeId) : List NodeId :=
  seed.drop (placeOf n seed.length + 1).toNat

def memberAt (n : Int) (seed : List NodeId) : List NodeId :=
  let place := placeOf n seed.length
  if place < 0 then [] else (seed[place.toNat]?).toList

def choice (choose : List NodeId → List NodeId) : Recipe :=
  .ready (.set (.rearrange choose))

/-- A choice by an index, which must be a signed 64-bit numeral. -/
def indexed (name : String) (choose : Int → List NodeId → List NodeId) : Option String → Recipe :=
  withArgument name fun argument =>
    match signed? (trimSpacing argument.toList) with
    | some n => choice (choose n)
    | none => .reject (.unrecognized (":" ++ name ++ "(" ++ argument ++ ")"))

/-- The pseudo-classes that take an argument or look at all candidates. -/
def factories : List (String × (Option String → Recipe)) :=
  [("not", negationRecipe),
    ("is", membershipRecipe),
    ("matches", membershipRecipe),
    ("has", hasRecipe),
    ("contains", containsRecipe),
    ("lang", langRecipe),
    ("first", fun _ => choice (·.take 1)),
    ("last", fun _ => choice fun seed => seed.drop (seed.length - 1)),
    ("even", fun _ => choice evenPlaces),
    ("odd", fun _ => choice fun seed => evenPlaces (seed.drop 1)),
    ("eq", indexed "eq" memberAt),
    ("nth", indexed "nth" memberAt),
    ("lt", indexed "lt" takeBefore),
    ("gt", indexed "gt" dropThrough)]

/-- The registry of the pseudo-classes that are always there. -/
def Registry.standard : Registry :=
  let r := predicates.foldl (fun r (name, accepts) =>
    r.register name (.predicate fun s n => accepts s.document n)) Registry.empty
  factories.foldl (fun r (name, build) => r.register name (.factory build)) r

end TreeQuery
