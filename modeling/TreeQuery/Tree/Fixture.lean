import TreeQuery.SelectorError
import TreeQuery.Tree.Document

/-!
# Fixtures

A fixture describes a subtree before it is built. A description with a tag stands for an element,
with its text as first child and then its children; one without a tag stands for its text alone.
-/

namespace TreeQuery

inductive Fixture where
  | node (tag id className : Option String) (attributes : List (String × String))
      (text : Option String) (children : List Fixture)
  deriving Inhabited

namespace Document

/-- A new element of a fixture. The id comes first, then the class, then the attributes in their
order; what is set later wins. -/
def createDescribed (d : Document) (tag : String) (id className : Option String)
    (attributes : List (String × String)) : Document × NodeId :=
  let (d, n) := d.createElement tag
  let described :=
    (id.map (("id", ·))).toList ++ (className.map (("class", ·))).toList ++ attributes
  (described.foldl (fun d entry => d.setAttribute n entry.1 entry.2) d, n)

mutual

/-- Builds a fixture as the last child of a node and names the new node. What was built before a
fault stays. -/
def build (d : Document) (parent : NodeId) : Fixture → Document × Except SelectorError NodeId
  | .node none _ _ _ (some content) _ =>
    let (d, n) := d.appendText parent content
    (d, .ok n)
  | .node none _ _ _ none _ => (d, .error (.config .emptyFixture))
  | .node (some tag) id className attributes text children =>
    let (d, n) := d.createDescribed tag id className attributes
    let d := d.appendChild parent n
    let d := match text with
      | some content => (d.appendText n content).1
      | none => d
    match d.buildAll n children with
    | (d, .ok _) => (d, .ok n)
    | (d, .error e) => (d, .error e)

/-- Builds fixtures one after the other, up to the first fault. -/
def buildAll (d : Document) (parent : NodeId) : List Fixture → Document × Except SelectorError Unit
  | [] => (d, .ok ())
  | fixture :: rest =>
    match d.build parent fixture with
    | (d, .ok _) => d.buildAll parent rest
    | (d, .error e) => (d, .error e)

end

/-- A document that holds fixtures under its document node. -/
def ofFixtures (xml : Bool) (fixtures : List Fixture) : Except SelectorError Document :=
  match (Document.empty xml).buildAll root fixtures with
  | (d, .ok _) => .ok d
  | (_, .error e) => .error e

end Document

end TreeQuery
