/-!
# Bounded caches

A cache holds at most `capacity` entries and drops the oldest to make room. The values lie in a table
by their keys, and a queue beside it holds the keys in the order in which they came in. Looking a
key up does not move it, and neither does giving it a new value.
-/

namespace TreeQuery

structure CacheStats where
  lookups : Nat
  hits : Nat
  misses : Nat
  insertions : Nat
  evictions : Nat
  deriving Repr, DecidableEq, Inhabited

namespace CacheStats

def zero : CacheStats := ⟨0, 0, 0, 0, 0⟩

/-- The share of lookups that found a value; zero before the first lookup. -/
def hitRatio (s : CacheStats) : Float :=
  if s.lookups = 0 then 0 else s.hits.toFloat / s.lookups.toFloat

end CacheStats

structure BoundedCache (κ α : Type) where
  capacity : Nat
  /-- Keys and values, in no order that counts. -/
  entries : List (κ × α)
  /-- The keys, the oldest first. -/
  queue : List κ
  stats : CacheStats
  deriving Repr, Inhabited

namespace BoundedCache

variable {κ α : Type} [DecidableEq κ]

/-- A cache without entries. It has room for at least one. -/
def empty (capacity : Nat) : BoundedCache κ α :=
  ⟨max capacity 1, [], [], .zero⟩

def keys (c : BoundedCache κ α) : List κ := c.queue

def size (c : BoundedCache κ α) : Nat := c.entries.length

/-- Looks a key up without counting it. -/
def peek (c : BoundedCache κ α) (key : κ) : Option α :=
  (c.entries.find? fun entry => entry.1 = key).map (·.2)

def contains (c : BoundedCache κ α) (key : κ) : Bool := (c.peek key).isSome

/-- Looks a key up and counts a hit or a miss. -/
def get (c : BoundedCache κ α) (key : κ) : Option α × BoundedCache κ α :=
  let found := c.peek key
  let stats :=
    { c.stats with
      lookups := c.stats.lookups + 1
      hits := c.stats.hits + (if found.isSome then 1 else 0)
      misses := c.stats.misses + (if found.isSome then 0 else 1) }
  (found, { c with stats })

/-- Drops the oldest entries until there is room for one more. -/
def makeRoom (c : BoundedCache κ α) : BoundedCache κ α :=
  go c.queue c
where
  go : List κ → BoundedCache κ α → BoundedCache κ α
    | [], c => { c with queue := [] }
    | oldest :: queue, c =>
      if queue.length + 1 < c.capacity then { c with queue := oldest :: queue }
      else
        go queue
          { c with
            entries := c.entries.filter fun entry => entry.1 ≠ oldest
            stats := { c.stats with evictions := c.stats.evictions + 1 } }

/-- Gives a key a value. A key that is new to a full cache pushes the oldest entries out. -/
def insert (c : BoundedCache κ α) (key : κ) (value : α) : BoundedCache κ α :=
  if c.contains key then
    { c with entries := c.entries.map fun entry => if entry.1 = key then (key, value) else entry }
  else
    let c := c.makeRoom
    { c with
      entries := (key, value) :: c.entries
      queue := c.queue ++ [key]
      stats := { c.stats with insertions := c.stats.insertions + 1 } }

/-- Drops every entry and keeps the counts. -/
def clear (c : BoundedCache κ α) : BoundedCache κ α := { c with entries := [], queue := [] }

end BoundedCache

end TreeQuery
