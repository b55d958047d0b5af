import TreeQuery.Tree.Document
import TreeQuery.Selector.Combinator

/-!
# Walks over a document

Every walk follows links from node to node. No walk over a forest takes more steps than the arena
has nodes, so the size of the arena bounds each of them and all of them end on any arena at all.
-/

namespace TreeQuery

/-- The first node that is accepted on the way from `start`, at most `bound` nodes being asked. -/
def seek (step : NodeId → Option NodeId) (accept : NodeId → Bool) :
    Nat → Option NodeId → Option NodeId
  | _, none => none
  | 0, some _ => none
  | bound + 1, some n => if accept n then some n else seek step accept bound (step n)

namespace Document

def parentElement (d : Document) (n : NodeId) : Option NodeId :=
  (d.parent n).filter d.isElement

def previousElement (d : Document) (n : NodeId) : Option NodeId :=
  seek d.previousSibling d.isElement d.size (d.previousSibling n)

def nextElement (d : Document) (n : NodeId) : Option NodeId :=
  seek d.nextSibling d.isElement d.size (d.nextSibling n)

/-- The element that one step of a combinator leads to. -/
def stepTo (d : Document) : Direction → NodeId → Option NodeId
  | .parent => d.parentElement
  | .previousSibling => d.previousElement

/-- The top of the tree that a node stands in: the node itself if it has no parent. -/
def rootOf (d : Document) (n : NodeId) : NodeId :=
  (seek d.parent (fun a => (d.parent a).isNone) d.size (some n)).getD n

/-- Whether `ancestor` is a parent of `n`, or a parent of a parent, and so on. -/
def contains (d : Document) (ancestor n : NodeId) : Bool :=
  (seek d.parent (· == ancestor) d.size (d.parent n)).isSome

/-- The next sibling of `n`, or of the closest node above it that has one, without leaving the
subtree of `scope`. -/
def nextAfter (d : Document) (scope : NodeId) : Nat → NodeId → Option NodeId
  | 0, _ => none
  | bound + 1, n =>
    if n = scope then none
    else
      match d.nextSibling n with
      | some s => some s
      | none => (d.parent n).bind (nextAfter d scope bound)

/-- The node after `n` in the order in which the subtree of `scope` is written down. -/
def nextInPreorder (d : Document) (scope n : NodeId) : Option NodeId :=
  match d.firstChild n with
  | some c => some c
  | none => d.nextAfter scope (d.size + 1) n

/-- The nodes met from `start` on, in preorder within the subtree of `scope`. -/
def preorderFrom (d : Document) (scope : NodeId) : Nat → Option NodeId → List NodeId
  | _, none => []
  | 0, some _ => []
  | bound + 1, some n => n :: d.preorderFrom scope bound (d.nextInPreorder scope n)

def descendants (d : Document) (scope : NodeId) : List NodeId :=
  d.preorderFrom scope d.size (d.firstChild scope)

def descendantElements (d : Document) (scope : NodeId) : List NodeId :=
  (d.descendants scope).filter d.isElement

/-- Adds the contents of text nodes to `out`: down from `current` by first children, each node that
is met going on a stack, and from there on with the next sibling of the node that was met last. -/
def collectText (d : Document) : Nat → Option NodeId → List NodeId → String → String
  | 0, _, _, out => out
  | bound + 1, some n, met, out =>
    d.collectText bound (d.firstChild n) (n :: met) (out ++ (d.text n).getD "")
  | bound + 1, none, n :: met, out => d.collectText bound (d.nextSibling n) met out
  | _ + 1, none, [], out => out

/-- The contents of the text nodes below `n`, put together. Every node below is met once and left
once. -/
def textContent (d : Document) (n : NodeId) : String :=
  d.collectText (2 * d.size) (d.firstChild n) [] ""

/-- The children from `start` on, at most `bound` of them. -/
def siblingsFrom (d : Document) : Nat → Option NodeId → List NodeId
  | _, none => []
  | 0, some _ => []
  | bound + 1, some n => n :: d.siblingsFrom bound (d.nextSibling n)

def children (d : Document) (n : NodeId) : List NodeId :=
  d.siblingsFrom d.size (d.firstChild n)

def hasTag (d : Document) (xml : Bool) (n : NodeId) (name : String) : Bool :=
  (d.localName n).any fun tag => sameName xml tag name

end Document

end TreeQuery
