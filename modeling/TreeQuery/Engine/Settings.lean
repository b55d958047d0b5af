import TreeQuery.SelectorError
import TreeQuery.Compile.Compiler

/-!
# Settings of an engine

How much the caches hold and which shortcuts are taken. The shortcuts never change an answer; they
change how it is found.
-/

namespace TreeQuery

structure ExecutionSettings where
  /-- Answer a bare id, tag or class from the host's indexes. -/
  fastPath : Bool
  /-- Let the host answer selectors that it can answer by itself. -/
  nativeSelect : Bool
  /-- Start from what an index knows about the last compound. Works only with the fast path. -/
  seedNarrowing : Bool
  /-- Keep the outcomes of walks. -/
  walkCache : Bool
  /-- The table sizes above which walks and ranks are forgotten between queries. -/
  walkTableLimit : Nat
  deriving Repr, DecidableEq, Inhabited

structure Settings where
  cache : CacheCapacities
  execution : ExecutionSettings
  deriving Repr, DecidableEq, Inhabited

namespace Settings

def uniform (capacity : Nat) : CacheCapacities := ⟨capacity, capacity, capacity⟩

def standard : Settings :=
  ⟨uniform 50, ⟨true, true, true, true, 65536⟩⟩

def highThroughput : Settings :=
  ⟨uniform 500, { standard.execution with walkTableLimit := 1048576 }⟩

def memoryEfficient : Settings :=
  ⟨uniform 10, { standard.execution with walkTableLimit := 4096 }⟩

/-- Without shortcuts: every selector is compiled and matched. -/
def development : Settings :=
  { standard with
    execution :=
      { standard.execution with fastPath := false, nativeSelect := false, seedNarrowing := false } }

/-- The first capacity or limit that is zero. -/
def fault? (s : Settings) : Option ConfigFault :=
  let limits : List (String × Nat) :=
    [("cache.token_capacity", s.cache.tokens), ("cache.compiled_capacity", s.cache.compiled),
      ("cache.class_capacity", s.cache.classes),
      ("execution.walk_table_limit", s.execution.walkTableLimit)]
  (limits.find? fun limit => limit.2 = 0).map fun limit => .notPositive limit.1

def checked (s : Settings) : Except SelectorError Settings :=
  match s.fault? with
  | some fault => .error (.config fault)
  | none => .ok s

def withCacheCapacity (s : Settings) (capacity : Nat) : Settings :=
  { s with cache := uniform capacity }

def withTokenCapacity (s : Settings) (capacity : Nat) : Settings :=
  { s with cache := { s.cache with tokens := capacity } }

def withCompiledCapacity (s : Settings) (capacity : Nat) : Settings :=
  { s with cache := { s.cache with compiled := capacity } }

def withClassCapacity (s : Settings) (capacity : Nat) : Settings :=
  { s with cache := { s.cache with classes := capacity } }

/-- Takes or leaves every shortcut by an index. -/
def withFastPath (s : Settings) (enable : Bool) : Settings :=
  { s with execution := { s.execution with fastPath := enable, seedNarrowing := enable } }

def withNativeSelect (s : Settings) (enable : Bool) : Settings :=
  { s with execution := { s.execution with nativeSelect := enable } }

def withSeedNarrowing (s : Settings) (enable : Bool) : Settings :=
  { s with execution := { s.execution with seedNarrowing := enable } }

def withWalkCache (s : Settings) (enable : Bool) : Settings :=
  { s with execution := { s.execution with walkCache := enable } }

def withWalkTableLimit (s : Settings) (limit : Nat) : Settings :=
  { s with execution := { s.execution with walkTableLimit := limit } }

end Settings

end TreeQuery
