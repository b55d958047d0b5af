import TreeQuery.Tree.Walk
import TreeQuery.Selector.Token

/-!
# Ranks among siblings

The rank of an element is its number among the element children of its parent, counted from one and
from either end, among all of them or among those with its tag. One pass over the children finds the
ranks of all of them.
-/

namespace TreeQuery

structure SiblingRank where
  index : Nat
  fromEnd : Nat
  typeIndex : Nat
  typeFromEnd : Nat
  deriving Repr, DecidableEq, Inhabited

namespace SiblingRank

def forPosition (r : SiblingRank) (p : StructuralPosition) : Nat :=
  match p.ofType, p.fromEnd with
  | false, false => r.index
  | false, true => r.fromEnd
  | true, false => r.typeIndex
  | true, true => r.typeFromEnd

end SiblingRank

/-- Raises the count of a tag by one and gives the new count back. -/
def countTag (tag : String) : List (String × Nat) → List (String × Nat) × Nat
  | [] => ([(tag, 1)], 1)
  | (t, count) :: rest =>
    if t = tag then ((t, count + 1) :: rest, count + 1)
    else
      let (rest, found) := countTag tag rest
      ((t, count) :: rest, found)

/-- For each tag of a list the number of times it has occurred, itself included. -/
def occurrences (counts : List (String × Nat)) : List String → List Nat
  | [] => []
  | tag :: rest =>
    let (counts, count) := countTag tag counts
    count :: occurrences counts rest

/-- Pairs each child with its rank, given the tags of the children. -/
def rankSiblings (children : List (NodeId × String)) : List (NodeId × SiblingRank) :=
  let tags := children.map (·.2)
  let forward := occurrences [] tags
  let backward := (occurrences [] tags.reverse).reverse
  let total := children.length
  (children.zip (forward.zip backward)).mapIdx fun i ((n, _), typeIndex, typeFromEnd) =>
    (n, ⟨i + 1, total - i, typeIndex, typeFromEnd⟩)

namespace Document

/-- The tag by which siblings count as the same kind. -/
def tagKey (d : Document) (xml : Bool) (n : NodeId) : String :=
  let name := (d.localName n).getD ""
  if xml then name else name.toLower

def childRanks (d : Document) (xml : Bool) (parent : NodeId) : List (NodeId × SiblingRank) :=
  rankSiblings (((d.children parent).filter d.isElement).map fun n => (n, d.tagKey xml n))

end Document

end TreeQuery
