import TreeQuery.SelectorError
import TreeQuery.Tree.Position

/-!
# Hosts

A host shows a document to the engine together with what it can do beyond plain navigation: look
elements up by id, tag or class, answer whole selectors by itself, and compare the positions of
nodes. `Features` says which of these it advertises; only what is advertised is asked for.
-/

namespace TreeQuery

structure Features where
  idIndex : Bool
  tagIndex : Bool
  classIndex : Bool
  nativeSelect : Bool
  comparator : Bool
  deriving Repr, DecidableEq, Inhabited

namespace Features

def none : Features := ⟨false, false, false, false, false⟩

/-- Everything but native selection. -/
def indexed : Features := ⟨true, true, true, false, true⟩

end Features

structure Host where
  document : Document
  /-- Whether tags in selectors are compared letter by letter, case included. -/
  xml : Bool
  /-- Equal for two states of one document, and different for two documents. -/
  identity : Nat
  features : Features
  elementsById : NodeId → String → List NodeId
  elementsByTag : NodeId → String → List NodeId
  elementsByClass : NodeId → String → List NodeId
  selectNative : NodeId → String → Except SelectorError (List NodeId)
  comparePosition : NodeId → NodeId → Option Ordering

namespace Document

/-- The elements below `scope` whose data pass a test, in preorder. -/
def elementsWhere (d : Document) (scope : NodeId) (keep : ElementData → Bool) : List NodeId :=
  (d.descendantElements scope).filter fun n => (d.element n).any keep

def elementsById (d : Document) (scope : NodeId) (id : String) : List NodeId :=
  d.elementsWhere scope fun e =>
    e.attributes.any fun entry => sameName d.xml entry.1 "id" && entry.2 == id

/-- The elements below `scope` with a given tag; all of them for `*`. -/
def elementsByTag (d : Document) (scope : NodeId) (name : String) : List NodeId :=
  if name == "*" then d.descendantElements scope
  else d.elementsWhere scope fun e => sameName d.xml e.name name

/-- The elements below `scope` with a given word in their class. -/
def elementsByClass (d : Document) (scope : NodeId) (word : String) : List NodeId :=
  d.elementsWhere scope fun e =>
    e.attributes.any fun entry =>
      sameName d.xml entry.1 "class" && (blankWords entry.2.toList).contains word.toList

def elements (d : Document) : List NodeId :=
  d.descendantElements root

def elementById (d : Document) (id : String) : Option NodeId :=
  d.elements.find? fun n => d.attribute? n "id" == some id

end Document

/-- A document that is handed to engines under an identity and with advertised features. -/
structure Page where
  document : Document
  identity : Nat
  features : Features
  deriving Inhabited

/-- A page that can also answer selectors by itself, if a hook is installed. -/
structure HookedPage extends Page where
  hook : Option (Page → NodeId → String → Except SelectorError (List NodeId))

namespace Page

def host (p : Page) : Host where
  document := p.document
  xml := p.document.xml
  identity := p.identity
  features := p.features
  elementsById := p.document.elementsById
  elementsByTag := p.document.elementsByTag
  elementsByClass := p.document.elementsByClass
  selectNative := fun _ query => .error (.host s!"no native selection installed for '{query}'")
  comparePosition := p.document.comparePosition

end Page

namespace HookedPage

/-- An empty page that advertises its indexes and its comparator. -/
def empty (identity : Nat) (xml : Bool) : HookedPage :=
  { document := .empty xml, identity, features := .indexed, hook := none }

/-- Advertises other features under a new identity. Native selection needs a hook. -/
def withFeatures (p : HookedPage) (identity : Nat) (features : Features) : HookedPage :=
  { p with
    identity
    features := { features with nativeSelect := features.nativeSelect && p.hook.isSome } }

/-- Installs a hook and advertises native selection under a new identity. -/
def withHook (p : HookedPage) (identity : Nat)
    (hook : Page → NodeId → String → Except SelectorError (List NodeId)) : HookedPage :=
  { p with identity, hook := some hook, features := { p.features with nativeSelect := true } }

def host (p : HookedPage) : Host :=
  match p.hook with
  | none => p.toPage.host
  | some hook => { p.toPage.host with selectNative := hook p.toPage }

end HookedPage

/-- A host that offers navigation alone. What it advertises is up to the caller, and nothing stands
behind it. -/
def Host.navigationOnly (document : Document) (features : Features) : Host where
  document := document
  xml := false
  identity := 0
  features := features
  elementsById := fun _ _ => []
  elementsByTag := fun _ _ => []
  elementsByClass := fun _ _ => []
  selectNative := fun _ query => .error (.host s!"native selection unavailable for '{query}'")
  comparePosition := fun _ _ => none

end TreeQuery
