import TreeQuery.Tree.Host

/-!
# Document order

`Host.uniqueSort` puts nodes into document order and drops what occurs twice. Nodes of different
trees are grouped by tree, the trees in the order in which they first occur.
-/

namespace TreeQuery

/-- The members of a list in the order of their first occurrence. -/
def distinct (xs : List NodeId) : List NodeId :=
  xs.foldl (fun seen x => if seen.contains x then seen else seen ++ [x]) []

/-- Drops every member that equals the one before it. -/
def dropRepeats : List NodeId → List NodeId
  | x :: y :: rest => if x = y then dropRepeats (y :: rest) else x :: dropRepeats (y :: rest)
  | xs => xs

/-- Whether one list of numbers does not come after another, number by number. -/
def pathLe : List Nat → List Nat → Bool
  | [], _ => true
  | _ :: _, [] => false
  | a :: as, b :: bs => a < b || (a == b && pathLe as bs)

namespace Host

/-- The trees that nodes stand in, in the order in which they first occur. -/
def roots (h : Host) (nodes : List NodeId) : List NodeId :=
  distinct (nodes.map h.document.rootOf)

/-- Sorts by what the host says about positions. -/
def sortByComparator (h : Host) (nodes : List NodeId) : List NodeId :=
  let roots := h.roots nodes
  let keyed := nodes.map fun n => (roots.idxOf (h.document.rootOf n), n)
  let le (a b : Nat × NodeId) : Bool :=
    a.1 < b.1 || (a.1 == b.1 && h.comparePosition a.2 b.2 != some .gt)
  (keyed.mergeSort le).map (·.2)

/-- Sorts by the places of the nodes below their roots. -/
def sortByPath (h : Host) (nodes : List NodeId) : List NodeId :=
  let roots := h.roots nodes
  let keyed := nodes.map fun n => (roots.idxOf (h.document.rootOf n) :: h.document.pathTo n, n)
  (keyed.mergeSort fun a b => pathLe a.1 b.1).map (·.2)

/-- The nodes in document order, each once. -/
def uniqueSort (h : Host) (nodes : List NodeId) : List NodeId :=
  if nodes.length < 2 then nodes
  else dropRepeats (if h.features.comparator then h.sortByComparator nodes else h.sortByPath nodes)

end Host

end TreeQuery
