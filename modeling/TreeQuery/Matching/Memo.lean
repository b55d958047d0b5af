import Std.Data.TreeMap
import TreeQuery.Matching.SiblingRank

/-!
# What a query remembers

While a selector is matched, the outcomes of walks and the ranks of siblings are kept for reuse.
Every entry carries the generation in which it was made, and entries of another generation do not
count, so that moving to a new generation forgets all of them at once. The anchors hold the
intermediate results of the staged plans that are running.
-/

namespace TreeQuery

/-- The name of a walk or of a staged plan. -/
abbrev MatcherId := UInt32

/-- A mark on an element that a walk has come by: whose walk it was, and the cell that holds or
will hold the outcome. -/
structure Stamp where
  generation : UInt32
  matcher : MatcherId
  cell : Nat
  deriving Repr, DecidableEq, Inhabited

structure Memo where
  generation : UInt32
  walkCache : Bool
  /-- The table sizes above which tables are emptied between queries. -/
  limit : Nat
  stamps : Std.TreeMap Nat Stamp
  cells : Array (Option Bool)
  ranks : Std.TreeMap NodeId (UInt32 × SiblingRank)
  anchors : List ((MatcherId × Nat) × List NodeId)

namespace Memo

def empty (walkCache : Bool) (limit : Nat) : Memo :=
  ⟨1, walkCache, limit, ∅, #[], ∅, []⟩

/-- Where the stamp of a node lies for walks in a direction. -/
def stampKey (n : NodeId) : Direction → Nat
  | .parent => 2 * n
  | .previousSibling => 2 * n + 1

/-- Moves to the next generation. After the last one the numbers start again from one, and the
entries made under the old numbers go; cells stay, since walks may still be open. -/
def bump (m : Memo) : Memo :=
  if m.generation + 1 = 0 then { m with generation := 1, stamps := ∅, ranks := ∅ }
  else { m with generation := m.generation + 1 }

/-- Prepares for a query: empties tables that have grown past the limit and moves on. -/
def beginQuery (m : Memo) : Memo :=
  let m :=
    if m.limit < m.stamps.size ∨ m.limit < m.cells.size then { m with stamps := ∅, cells := #[] }
    else m
  let m := if m.limit < m.ranks.size then { m with ranks := ∅ } else m
  m.bump

/-- Forgets everything and moves on. -/
def reset (m : Memo) : Memo :=
  bump { m with stamps := ∅, cells := #[], ranks := ∅, anchors := [] }

/-- The outcome of a finished walk of this generation that came by a node. -/
def outcome? (m : Memo) (n : NodeId) (direction : Direction) (matcher : MatcherId) : Option Bool :=
  match m.stamps[stampKey n direction]? with
  | some stamp =>
    if stamp.generation = m.generation ∧ stamp.matcher = matcher then (m.cells[stamp.cell]?).join
    else none
  | none => none

def openCell (m : Memo) : Nat × Memo :=
  (m.cells.size, { m with cells := m.cells.push none })

def closeCell (m : Memo) (cell : Nat) (outcome : Bool) : Memo :=
  { m with cells := m.cells.setIfInBounds cell (some outcome) }

def stamp (m : Memo) (n : NodeId) (direction : Direction) (matcher : MatcherId) (cell : Nat) :
    Memo :=
  { m with stamps := m.stamps.insert (stampKey n direction) ⟨m.generation, matcher, cell⟩ }

def rank? (m : Memo) (n : NodeId) : Option SiblingRank :=
  match m.ranks[n]? with
  | some (generation, rank) => if generation = m.generation then some rank else none
  | none => none

def recordRanks (m : Memo) (ranks : List (NodeId × SiblingRank)) : Memo :=
  { m with ranks := ranks.foldl (fun table (n, r) => table.insert n (m.generation, r)) m.ranks }

/-- The rank of a node, found again only if it is not known in this generation. -/
def siblingRank (m : Memo) (d : Document) (xml : Bool) (n : NodeId) : Option SiblingRank × Memo :=
  match m.rank? n with
  | some rank => (some rank, m)
  | none =>
    match d.parent n with
    | none => (none, m)
    | some p =>
      let m := m.recordRanks (d.childRanks xml p)
      ((m.ranks[n]?).map (·.2), m)

def setAnchor (m : Memo) (plan : MatcherId) (stage : Nat) (members : List NodeId) : Memo :=
  { m with
    anchors := ((plan, stage), members) :: m.anchors.filter fun entry => entry.1 ≠ (plan, stage) }

def inAnchor (m : Memo) (plan : MatcherId) (stage : Nat) (n : NodeId) : Bool :=
  (m.anchors.find? fun entry => entry.1 = (plan, stage)).any fun entry => entry.2.contains n

def clearAnchors (m : Memo) (plan : MatcherId) : Memo :=
  { m with anchors := m.anchors.filter fun entry => entry.1.1 ≠ plan }

end Memo

end TreeQuery
