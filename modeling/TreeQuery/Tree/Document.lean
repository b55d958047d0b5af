import TreeQuery.Text.Blank

/-!
# Documents

A document is an arena of nodes. A node is named by its place in the arena; place 0 is the document
node. Each node holds links to its parent, its first and last child and its two neighbours, so a
list of children is written down three times over, and `appendChild` and `detach` keep the copies in
step. Names past the end of the arena are harmless: such a node has no links and no data.
-/

namespace TreeQuery

/-- The place of a node in the arena of its document. Documents of `2 ^ 32` nodes, whose places do
not fit into handles of 32 bits, are left out. -/
abbrev NodeId := Nat

structure ElementData where
  /-- The tag as written. -/
  name : String
  /-- The attributes in the order in which they were first set. -/
  attributes : List (String × String)
  deriving Repr, DecidableEq, Inhabited

inductive NodeData where
  | document
  | element (e : ElementData)
  | text (content : String)
  | comment (content : String)
  deriving Repr, DecidableEq, Inhabited

structure Node where
  parent : Option NodeId
  firstChild : Option NodeId
  lastChild : Option NodeId
  previousSibling : Option NodeId
  nextSibling : Option NodeId
  data : NodeData
  deriving Repr, DecidableEq, Inhabited

def Node.detached (data : NodeData) : Node :=
  ⟨none, none, none, none, none, data⟩

structure Document where
  nodes : Array Node
  /-- Whether names of tags and attributes are compared letter by letter, case included. -/
  xml : Bool
  deriving Repr, DecidableEq, Inhabited

namespace Document

def empty (xml : Bool) : Document :=
  ⟨#[.detached .document], xml⟩

def root : NodeId := 0

def size (d : Document) : Nat := d.nodes.size

def parent (d : Document) (n : NodeId) : Option NodeId := d.nodes[n]?.bind (·.parent)

def firstChild (d : Document) (n : NodeId) : Option NodeId := d.nodes[n]?.bind (·.firstChild)

def lastChild (d : Document) (n : NodeId) : Option NodeId := d.nodes[n]?.bind (·.lastChild)

def previousSibling (d : Document) (n : NodeId) : Option NodeId :=
  d.nodes[n]?.bind (·.previousSibling)

def nextSibling (d : Document) (n : NodeId) : Option NodeId := d.nodes[n]?.bind (·.nextSibling)

def data (d : Document) (n : NodeId) : Option NodeData := d.nodes[n]?.map (·.data)

def element (d : Document) (n : NodeId) : Option ElementData :=
  match d.data n with
  | some (.element e) => some e
  | _ => none

def isElement (d : Document) (n : NodeId) : Bool := (d.element n).isSome

def text (d : Document) (n : NodeId) : Option String :=
  match d.data n with
  | some (.text content) => some content
  | _ => none

def isText (d : Document) (n : NodeId) : Bool := (d.text n).isSome

/-- The tag of an element as written. -/
def localName (d : Document) (n : NodeId) : Option String := (d.element n).map (·.name)

end Document

/-- Whether two names are the same; outside XML the case of ASCII letters does not count. -/
def sameName (xml : Bool) (a b : String) : Bool :=
  if xml then a == b else equalFolded a b

namespace ElementData

/-- The value of the first attribute of a given name. -/
def attribute? (xml : Bool) (e : ElementData) (name : String) : Option String :=
  (e.attributes.find? fun entry => sameName xml entry.1 name).map (·.2)

/-- Changes the value of the attribute of a given name, or adds the attribute at the end. -/
def setAttribute (xml : Bool) (name value : String) (e : ElementData) : ElementData :=
  { e with attributes := go e.attributes }
where
  go : List (String × String) → List (String × String)
    | [] => [(name, value)]
    | entry :: rest =>
      if sameName xml entry.1 name then (entry.1, value) :: rest else entry :: go rest

def removeAttribute (xml : Bool) (name : String) (e : ElementData) : ElementData :=
  { e with attributes := e.attributes.filter fun entry => !sameName xml entry.1 name }

end ElementData

namespace Document

def attribute? (d : Document) (n : NodeId) (name : String) : Option String :=
  (d.element n).bind fun e => e.attribute? d.xml name

/-- Changes one node; a name past the end of the arena changes nothing. -/
def modifyNode (d : Document) (n : NodeId) (f : Node → Node) : Document :=
  { d with nodes := d.nodes.modify n f }

def modifyElement (d : Document) (n : NodeId) (f : ElementData → ElementData) : Document :=
  d.modifyNode n fun node =>
    match node.data with
    | .element e => { node with data := .element (f e) }
    | _ => node

/-- Adds a node without links; it is named by the size of the arena before. -/
def create (d : Document) (data : NodeData) : Document × NodeId :=
  ({ d with nodes := d.nodes.push (.detached data) }, d.size)

def createElement (d : Document) (name : String) : Document × NodeId :=
  d.create (.element ⟨name, []⟩)

def createText (d : Document) (content : String) : Document × NodeId :=
  d.create (.text content)

def createComment (d : Document) (content : String) : Document × NodeId :=
  d.create (.comment content)

/-- Takes a node, with all below it, out of the children of its parent. -/
def detach (d : Document) (n : NodeId) : Document :=
  match d.parent n with
  | none => d
  | some p =>
    let previous := d.previousSibling n
    let next := d.nextSibling n
    let d := match previous with
      | some s => d.modifyNode s fun node => { node with nextSibling := next }
      | none => d.modifyNode p fun node => { node with firstChild := next }
    let d := match next with
      | some s => d.modifyNode s fun node => { node with previousSibling := previous }
      | none => d.modifyNode p fun node => { node with lastChild := previous }
    d.modifyNode n fun node =>
      { node with parent := none, previousSibling := none, nextSibling := none }

/-- Makes a node the last child of another, taking it from where it was. A node is not put under
itself, and names past the end of the arena change nothing. -/
def appendChild (d : Document) (parent child : NodeId) : Document :=
  if parent = child ∨ d.size ≤ child ∨ d.size ≤ parent then d
  else
    let d := d.detach child
    let last := d.lastChild parent
    let d := d.modifyNode child fun node =>
      { node with parent := some parent, previousSibling := last, nextSibling := none }
    let d := match last with
      | some s => d.modifyNode s fun node => { node with nextSibling := some child }
      | none => d.modifyNode parent fun node => { node with firstChild := some child }
    d.modifyNode parent fun node => { node with lastChild := some child }

def setAttribute (d : Document) (n : NodeId) (name value : String) : Document :=
  d.modifyElement n (ElementData.setAttribute d.xml name value)

def removeAttribute (d : Document) (n : NodeId) (name : String) : Document :=
  d.modifyElement n (ElementData.removeAttribute d.xml name)

def appendElement (d : Document) (parent : NodeId) (name : String)
    (attributes : List (String × String)) : Document × NodeId :=
  let (d, n) := d.createElement name
  let d := attributes.foldl (fun d entry => d.setAttribute n entry.1 entry.2) d
  (d.appendChild parent n, n)

def appendText (d : Document) (parent : NodeId) (content : String) : Document × NodeId :=
  let (d, n) := d.createText content
  (d.appendChild parent n, n)

end Document

end TreeQuery
