import TreeQuery.Engine.Settings

/-!
# Settings as data

Settings are read from trees of data that know numbers, switches, named fields and rows. Fields
that settings do not have are passed over, fields that are missing keep their standard values, and
a field that occurs twice is refused.
-/

namespace TreeQuery

/-- A tree of data as far as settings are concerned. -/
inductive Datum where
  /-- A number that fits in unsigned 64 bits. -/
  | count (n : Nat)
  | switch (on : Bool)
  /-- Named values in their order; a name that is no text is `none`. -/
  | fields (entries : List (Option String × Datum))
  /-- Values that stand for the fields in their order. -/
  | row (items : List Datum)
  | other
  deriving Inhabited

namespace Datum

def toCount : Datum → Option Nat
  | .count n => some n
  | _ => none

def toSwitch : Datum → Option Bool
  | .switch on => some on
  | _ => none

/-- The values of named fields. A row gives the first fields and must not be longer than the
names. -/
def named (names : List String) : Datum → Option (List (String × Datum))
  | .fields entries => do
    let entries ← entries.mapM fun (name, value) => name.map fun name => (name, value)
    let known := entries.filter fun entry => names.contains entry.1
    if (known.map (·.1)).Nodup then some known else none
  | .row items => if items.length ≤ names.length then some (names.zip items) else none
  | _ => none

/-- The value of one field: the standard value if the field is missing, `none` if it cannot be
read. -/
def field {α : Type} (read : Datum → Option α) (standard : α) (fields : List (String × Datum))
    (name : String) : Option α :=
  match fields.lookup name with
  | some value => read value
  | none => some standard

end Datum

def CacheCapacities.ofDatum (value : Datum) : Option CacheCapacities := do
  let standard := Settings.standard.cache
  let fields ← value.named ["token_capacity", "compiled_capacity", "class_capacity"]
  let count (standard : Nat) (name : String) : Option Nat :=
    Datum.field Datum.toCount standard fields name
  return {
    tokens := ← count standard.tokens "token_capacity"
    compiled := ← count standard.compiled "compiled_capacity"
    classes := ← count standard.classes "class_capacity" }

def ExecutionSettings.ofDatum (value : Datum) : Option ExecutionSettings := do
  let standard := Settings.standard.execution
  let fields ← value.named ["enable_fast_path", "enable_native_select", "enable_seed_narrowing",
    "enable_walk_cache", "walk_table_limit"]
  let switch (standard : Bool) (name : String) : Option Bool :=
    Datum.field Datum.toSwitch standard fields name
  return {
    fastPath := ← switch standard.fastPath "enable_fast_path"
    nativeSelect := ← switch standard.nativeSelect "enable_native_select"
    seedNarrowing := ← switch standard.seedNarrowing "enable_seed_narrowing"
    walkCache := ← switch standard.walkCache "enable_walk_cache"
    walkTableLimit :=
      ← Datum.field Datum.toCount standard.walkTableLimit fields "walk_table_limit" }

/-- Settings as data. They may still ask for a capacity of zero. -/
def Settings.ofDatum (value : Datum) : Option Settings := do
  let fields ← value.named ["cache", "execution"]
  return {
    cache := ← Datum.field CacheCapacities.ofDatum standard.cache fields "cache"
    execution :=
      ← Datum.field ExecutionSettings.ofDatum standard.execution fields "execution" }

end TreeQuery
