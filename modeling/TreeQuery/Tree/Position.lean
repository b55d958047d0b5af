import TreeQuery.Tree.Walk

/-!
# Positions in a document

Two ways to say which of two nodes comes first: `comparePosition` climbs from both nodes until the
two ways up meet, and `pathTo` writes a node's place as the numbers of earlier siblings on the way
down from its root, to be compared from the top.
-/

namespace TreeQuery

namespace Document

def depth (d : Document) (n : NodeId) : Nat :=
  go d.size n
where
  go : Nat → NodeId → Nat
    | 0, _ => 0
    | bound + 1, n =>
      match d.parent n with
      | some p => go bound p + 1
      | none => 0

/-- Climbs a number of steps; `none` above a root. The flag says that the climb met `target` and
stopped there. -/
def climb (d : Document) (target : NodeId) : Nat → NodeId → Option (Bool × NodeId)
  | 0, n => some (false, n)
  | steps + 1, n =>
    match d.parent n with
    | none => none
    | some p => if p = target then some (true, p) else d.climb target steps p

/-- From two nodes of the same depth, the two siblings above them or among them. -/
def meet (d : Document) : Nat → NodeId → NodeId → Option (NodeId × NodeId)
  | 0, _, _ => none
  | bound + 1, a, b =>
    if d.parent a = d.parent b then (d.parent a).map fun _ => (a, b)
    else
      match d.parent a, d.parent b with
      | some p, some q => d.meet bound p q
      | _, _ => none

/-- The order of two nodes of one tree: an ancestor comes before what is below it, and siblings are
in the order of their parent's children. Nodes of different trees have none. -/
def comparePosition (d : Document) (a b : NodeId) : Option Ordering :=
  if a = b then some .eq
  else
    match d.climb b (d.depth a - d.depth b) a, d.climb a (d.depth b - d.depth a) b with
    | none, _ => none
    | some (true, _), _ => some .gt
    | some (false, _), none => none
    | some (false, _), some (true, _) => some .lt
    | some (false, x), some (false, y) =>
      (d.meet d.size x y).map fun (x, y) =>
        if (seek d.nextSibling (· == y) d.size (d.nextSibling x)).isSome then .lt else .gt

def siblingIndex (d : Document) (n : NodeId) : Nat :=
  go d.size n
where
  go : Nat → NodeId → Nat
    | 0, _ => 0
    | bound + 1, n =>
      match d.previousSibling n with
      | some s => go bound s + 1
      | none => 0

/-- The sibling indexes on the way from the root down to a node. -/
def pathTo (d : Document) (n : NodeId) : List Nat :=
  go d.size n []
where
  go : Nat → NodeId → List Nat → List Nat
    | 0, _, below => below
    | bound + 1, n, below =>
      match d.parent n with
      | some p => go bound p (d.siblingIndex n :: below)
      | none => below

end Document

end TreeQuery
