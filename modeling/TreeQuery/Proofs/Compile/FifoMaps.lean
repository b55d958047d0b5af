import Mathlib.Data.List.Perm.Basic
import TreeQuery.Proofs.Compile.Entries

/-!
# First-in-first-out maps

A first-in-first-out map is a list of keys and values, the oldest first: a key that is there gets
its new value where it stands, and a new key comes in at the end and, into a full list, pushes the
oldest pair out. A cache keeps a table and a queue instead. Table and queue hold the same keys at
any time, and whatever a cache is asked, it answers as the map does; its counts say what became of
everything that was ever put in.
-/

namespace TreeQuery

/-- What a cache, and a map, can be asked to do. -/
inductive MapCall (κ α : Type) where
  | get (key : κ)
  | peek (key : κ)
  | contains (key : κ)
  | insert (key : κ) (value : α)
  | clear

/-- What a call gives back. An insertion gives the value that was put in. -/
inductive MapReply (α : Type) where
  | value (found : Option α)
  | present (yes : Bool)
  | done

/-- The replies to calls one after the other, and the state that is left. -/
def served {κ α σ : Type} (answer : σ → MapCall κ α → MapReply α × σ) :
    σ → List (MapCall κ α) → List (MapReply α) × σ
  | s, [] => ([], s)
  | s, call :: rest =>
    let (reply, s) := answer s call
    let (replies, s) := served answer s rest
    (reply :: replies, s)

namespace MapCall

variable {κ α : Type} [DecidableEq κ]

def isGet : MapCall κ α → Bool
  | .get _ => true
  | _ => false

/-- The value that a key was given last. -/
def lastGiven (key : κ) : List (MapCall κ α) → Option α
  | [] => none
  | .insert other value :: rest => (lastGiven key rest).or (if other = key then some value else none)
  | _ :: rest => lastGiven key rest

end MapCall

namespace FifoMap

variable {κ α : Type} [DecidableEq κ]

def put (capacity : Nat) (pairs : List (κ × α)) (key : κ) (value : α) : List (κ × α) :=
  if key ∈ pairs.map (·.1) then
    pairs.map fun pair => if pair.1 = key then (key, value) else pair
  else (if pairs.length < capacity then pairs else pairs.tail) ++ [(key, value)]

def answer (capacity : Nat) (pairs : List (κ × α)) :
    MapCall κ α → MapReply α × List (κ × α)
  | .get key => (.value (pairs.lookup key), pairs)
  | .peek key => (.value (pairs.lookup key), pairs)
  | .contains key => (.present (pairs.lookup key).isSome, pairs)
  | .insert key value => (.value (some value), put capacity pairs key value)
  | .clear => (.done, [])

/-- The number of pairs that one call clears away. -/
def clearedBy (pairs : List (κ × α)) : MapCall κ α → Nat
  | .clear => pairs.length
  | _ => 0

/-- The number of pairs that calls clear away. -/
def cleared (capacity : Nat) : List (κ × α) → List (MapCall κ α) → Nat
  | _, [] => 0
  | pairs, call :: rest =>
    clearedBy pairs call + cleared capacity (answer capacity pairs call).2 rest

variable {capacity : Nat} {pairs : List (κ × α)} {key : κ} {value : α}

lemma lookup_eq_some_iff (hnodup : (pairs.map (·.1)).Nodup) :
    pairs.lookup key = some value ↔ (key, value) ∈ pairs := by
  rw [List.lookup_eq_some_iff]
  constructor
  · rintro ⟨before, after, rfl, -⟩
    simp
  · intro hmem
    obtain ⟨before, after, rfl⟩ := List.append_of_mem hmem
    refine ⟨before, after, rfl, fun pair hpair => ?_⟩
    rw [List.map_append, List.map_cons] at hnodup
    have hapart := (List.nodup_append.mp hnodup).2.2
    simpa using (hapart pair.1 (List.mem_map_of_mem hpair) key List.mem_cons_self).symm

/-- Replacing a value changes no key. -/
theorem map_fst_replace (pairs : List (κ × α)) (key : κ) (value : α) :
    (pairs.map fun pair => if pair.1 = key then (key, value) else pair).map (·.1) =
      pairs.map (·.1) := by
  rw [List.map_map]
  refine List.map_congr_left fun pair _ => ?_
  rw [Function.comp_apply]
  split
  · rename_i hkey
    exact hkey.symm
  · rfl

lemma mem_of_mem_put {pair : κ × α} (h : pair ∈ put capacity pairs key value) :
    pair = (key, value) ∨ pair ∈ pairs ∧ pair.1 ≠ key := by
  unfold put at h
  split at h
  · obtain ⟨old, hold, rfl⟩ := List.mem_map.mp h
    by_cases hkey : old.1 = key
    · rw [if_pos hkey]
      exact .inl rfl
    · rw [if_neg hkey]
      exact .inr ⟨hold, hkey⟩
  · rename_i hnew
    obtain hmem | hmem := List.mem_append.mp h
    · have hold : pair ∈ pairs := by
        split at hmem
        · exact hmem
        · exact List.mem_of_mem_tail hmem
      exact .inr ⟨hold, fun heq => hnew (heq ▸ List.mem_map_of_mem hold)⟩
    · exact .inl (List.mem_singleton.mp hmem)

/-- Under every key stands what it was given last, in the calls or before them. -/
theorem lastGiven_of_mem_served (given : κ → Option α)
    (h : ∀ pair ∈ pairs, given pair.1 = some pair.2) (calls : List (MapCall κ α)) :
    ∀ pair ∈ (served (answer capacity) pairs calls).2,
      (MapCall.lastGiven pair.1 calls).or (given pair.1) = some pair.2 := by
  induction calls generalizing pairs given with
  | nil => exact h
  | cons call rest ih =>
    intro pair hpair
    cases call with
    | insert key value =>
      have hput : ∀ pair ∈ put capacity pairs key value,
          (if key = pair.1 then some value else none).or (given pair.1) = some pair.2 := by
        intro pair hpair
        obtain rfl | ⟨hold, hne⟩ := mem_of_mem_put hpair
        · simp
        · simp [hne.symm, h pair hold]
      rw [MapCall.lastGiven, Option.or_assoc]
      exact ih (fun k => (if key = k then some value else none).or (given k)) hput pair hpair
    | clear =>
      have hempty : ∀ pair ∈ ([] : List (κ × α)), given pair.1 = some pair.2 := by simp
      exact ih given hempty pair hpair
    | get key => exact ih given h pair hpair
    | peek key => exact ih given h pair hpair
    | contains key => exact ih given h pair hpair

end FifoMap

namespace BoundedCache

variable {κ α : Type}

/-- Whether table and queue hold the pairs of a map that fits into the cache. -/
structure Holds (c : BoundedCache κ α) (pairs : List (κ × α)) : Prop where
  queue : c.queue = pairs.map (·.1)
  table : c.entries.Perm pairs
  nodup : (pairs.map (·.1)).Nodup
  fits : pairs.length ≤ c.capacity
  roomy : 0 < c.capacity

/-- Whether every lookup was a hit or a miss, and everything ever put in is still there, was pushed
out, or is among the `cleared`. -/
structure Balanced (c : BoundedCache κ α) (cleared : Nat) : Prop where
  lookups : c.stats.lookups = c.stats.hits + c.stats.misses
  insertions : c.stats.insertions = c.size + c.stats.evictions + cleared

lemma holds_empty (capacity : Nat) : (empty capacity : BoundedCache κ α).Holds [] where
  queue := rfl
  table := .nil
  nodup := List.nodup_nil
  fits := Nat.zero_le _
  roomy := Nat.lt_of_lt_of_le Nat.one_pos (Nat.le_max_right _ _)

lemma balanced_empty (capacity : Nat) : (empty capacity : BoundedCache κ α).Balanced 0 :=
  ⟨rfl, rfl⟩

lemma Holds.size_eq {c : BoundedCache κ α} {pairs : List (κ × α)} (h : c.Holds pairs) :
    c.size = pairs.length := h.table.length_eq

variable [DecidableEq κ]

def answer (c : BoundedCache κ α) : MapCall κ α → MapReply α × BoundedCache κ α
  | .get key =>
    let (found, c) := c.get key
    (.value found, c)
  | .peek key => (.value (c.peek key), c)
  | .contains key => (.present (c.contains key), c)
  | .insert key value => (.value (some value), c.insert key value)
  | .clear => (.done, c.clear)

variable {c : BoundedCache κ α} {pairs : List (κ × α)}

namespace Holds

lemma peek_eq (h : c.Holds pairs) (key : κ) : c.peek key = pairs.lookup key := by
  have hkeys : (c.entries.map (·.1)).Nodup := (h.table.map (·.1)).nodup_iff.mpr h.nodup
  refine Option.ext fun value => ?_
  rw [FifoMap.lookup_eq_some_iff h.nodup, ← h.table.mem_iff]
  refine ⟨mem_of_peek, fun hmem => ?_⟩
  obtain ⟨before, after, hentries⟩ := List.append_of_mem hmem
  rw [hentries, List.map_append, List.map_cons] at hkeys
  have hbefore : before.find? (fun entry => entry.1 = key) = none := by
    refine List.find?_eq_none.mpr fun entry hentry => ?_
    have hapart := (List.nodup_append.mp hkeys).2.2
    simpa using hapart entry.1 (List.mem_map_of_mem hentry) key List.mem_cons_self
  simp [peek, hentries, hbefore]

lemma peek_eq_some_iff (h : c.Holds pairs) {key : κ} {value : α} :
    c.peek key = some value ↔ (key, value) ∈ pairs := by
  rw [h.peek_eq]
  exact FifoMap.lookup_eq_some_iff h.nodup

lemma contains_iff (h : c.Holds pairs) (key : κ) :
    c.contains key = true ↔ key ∈ pairs.map (·.1) := by
  rw [contains, Option.isSome_iff_exists, List.mem_map]
  constructor
  · rintro ⟨value, hvalue⟩
    exact ⟨(key, value), h.peek_eq_some_iff.mp hvalue, rfl⟩
  · rintro ⟨⟨_, value⟩, hmem, rfl⟩
    exact ⟨value, h.peek_eq_some_iff.mpr hmem⟩

/-- A cache that is not full drops nothing. -/
theorem makeRoom_eq_self (h : c.Holds pairs) (hroom : pairs.length < c.capacity) :
    c.makeRoom = c := by
  have hlength : c.queue.length = pairs.length := by rw [h.queue, List.length_map]
  unfold makeRoom
  cases hqueue : c.queue with
  | nil =>
    rw [makeRoom.go, ← hqueue]
  | cons oldest queue =>
    rw [hqueue, List.length_cons] at hlength
    rw [makeRoom.go, if_pos (hlength ▸ hroom), ← hqueue]

/-- A full cache drops its oldest pair and no other. -/
theorem makeRoom_eq_drop (h : c.Holds pairs) (hfull : pairs.length = c.capacity) :
    ∃ oldest rest, pairs = oldest :: rest ∧
      c.makeRoom =
        { c with
          entries := c.entries.filter fun entry => entry.1 ≠ oldest.1
          queue := rest.map (·.1)
          stats := { c.stats with evictions := c.stats.evictions + 1 } } := by
  have hroomy := h.roomy
  obtain ⟨oldest, rest, rfl⟩ :=
    List.exists_cons_of_length_pos (hfull ▸ hroomy : 0 < pairs.length)
  refine ⟨oldest, rest, rfl, ?_⟩
  rw [List.length_cons] at hfull
  rw [makeRoom, h.queue, List.map_cons, makeRoom.go, if_neg (by simp [hfull])]
  cases rest with
  | nil => rfl
  | cons next rest =>
    rw [List.length_cons] at hfull
    rw [List.map_cons, makeRoom.go, if_pos (by simp only [List.length_map]; omega)]

/-- Making room leaves all pairs, or all but the oldest, and counts what it drops. -/
theorem makeRoom (h : c.Holds pairs) :
    c.makeRoom.capacity = c.capacity ∧
      c.makeRoom.Holds (if pairs.length < c.capacity then pairs else pairs.tail) ∧
      c.makeRoom.size < c.capacity ∧
      c.makeRoom.stats =
        { c.stats with
          evictions := c.stats.evictions + (c.size - c.makeRoom.size) } ∧
      c.makeRoom.size ≤ c.size := by
  by_cases hroom : pairs.length < c.capacity
  · rw [h.makeRoom_eq_self hroom, if_pos hroom, Nat.sub_self]
    exact ⟨rfl, h, h.size_eq ▸ hroom, rfl, Nat.le_refl _⟩
  · have hfits := h.fits
    obtain ⟨oldest, rest, rfl, hdropped⟩ := h.makeRoom_eq_drop (by omega)
    have hapart := List.nodup_cons.mp h.nodup
    have hkept : ((oldest :: rest).filter fun pair => pair.1 ≠ oldest.1) = rest := by
      rw [List.filter_cons_of_neg (by simp), List.filter_eq_self]
      intro pair hpair
      have hne : pair.1 ≠ oldest.1 := fun heq => hapart.1 (List.mem_map.mpr ⟨pair, hpair, heq⟩)
      simpa using hne
    have htable := h.table.filter fun pair => pair.1 ≠ oldest.1
    rw [hkept] at htable
    have hsize : c.size = rest.length + 1 := h.size_eq
    have hsize' : c.makeRoom.size = rest.length := by
      rw [hdropped]
      exact htable.length_eq
    rw [List.length_cons] at hfits hroom
    rw [if_neg (by simpa using hroom), hsize']
    refine ⟨by rw [hdropped], ?_, by omega, ?_, by omega⟩
    · rw [hdropped]
      exact ⟨rfl, htable, hapart.2, Nat.le_of_succ_le hfits, h.roomy⟩
    · rw [hdropped, hsize, Nat.add_sub_cancel_left]

lemma insert (h : c.Holds pairs) (key : κ) (value : α) :
    (c.insert key value).capacity = c.capacity ∧
      (c.insert key value).Holds (FifoMap.put c.capacity pairs key value) := by
  unfold BoundedCache.insert FifoMap.put
  by_cases hkey : key ∈ pairs.map (·.1)
  · rw [if_pos ((h.contains_iff key).mpr hkey), if_pos hkey]
    refine ⟨rfl, ?_, h.table.map _, ?_, ?_, h.roomy⟩
    · rw [FifoMap.map_fst_replace]
      exact h.queue
    · rw [FifoMap.map_fst_replace]
      exact h.nodup
    · rw [List.length_map]
      exact h.fits
  · rw [if_neg (fun hfound => hkey ((h.contains_iff key).mp hfound)), if_neg hkey]
    obtain ⟨hcapacity, hroom, hlt, -⟩ := h.makeRoom
    have hnew : key ∉ (if pairs.length < c.capacity then pairs else pairs.tail).map (·.1) := by
      split
      · exact hkey
      · intro hmem
        rw [List.map_tail] at hmem
        exact hkey (List.mem_of_mem_tail hmem)
    rw [hroom.size_eq] at hlt
    refine ⟨hcapacity, ?_, ?_, ?_, ?_, hroom.roomy⟩
    · rw [List.map_append, ← hroom.queue]
      rfl
    · exact (hroom.table.cons (key, value)).trans (List.perm_append_singleton _ _).symm
    · rw [List.map_append, List.nodup_append]
      refine ⟨hroom.nodup, List.pairwise_singleton _ _, fun other hother other' hother' => ?_⟩
      obtain rfl := List.mem_singleton.mp hother'
      rintro rfl
      exact hnew hother
    · rw [List.length_append, List.length_singleton]
      exact hcapacity ▸ hlt

/-- A cache answers a call as the map does, and holds the map that is left. -/
theorem answer (h : c.Holds pairs) (call : MapCall κ α) :
    (c.answer call).1 = (FifoMap.answer c.capacity pairs call).1 ∧
      (c.answer call).2.capacity = c.capacity ∧
      (c.answer call).2.Holds (FifoMap.answer c.capacity pairs call).2 := by
  cases call with
  | get key => exact ⟨congrArg _ (h.peek_eq key), rfl, h.queue, h.table, h.nodup, h.fits, h.roomy⟩
  | peek key => exact ⟨congrArg _ (h.peek_eq key), rfl, h⟩
  | contains key =>
    have hreply := congrArg (fun found => (.present found.isSome : MapReply α)) (h.peek_eq key)
    exact ⟨hreply, rfl, h⟩
  | insert key value => exact ⟨rfl, h.insert key value⟩
  | clear => exact ⟨rfl, rfl, rfl, .nil, List.nodup_nil, Nat.zero_le _, h.roomy⟩

end Holds

/-- What a call counts: the lookups it makes, and the pairs that it clears away. -/
theorem Balanced.answer {cleared : Nat} (hbalanced : c.Balanced cleared) (h : c.Holds pairs)
    (call : MapCall κ α) :
    (c.answer call).2.Balanced (cleared + FifoMap.clearedBy pairs call) ∧
      (c.answer call).2.stats.lookups = c.stats.lookups + (if call.isGet then 1 else 0) := by
  obtain ⟨hlookups, hinsertions⟩ := hbalanced
  cases call with
  | get key =>
    refine ⟨⟨?_, hinsertions⟩, rfl⟩
    simp only [BoundedCache.answer, BoundedCache.get]
    split <;> omega
  | peek key => exact ⟨⟨hlookups, hinsertions⟩, rfl⟩
  | contains key => exact ⟨⟨hlookups, hinsertions⟩, rfl⟩
  | clear =>
    refine ⟨⟨hlookups, ?_⟩, rfl⟩
    have hsize := h.size_eq
    show c.stats.insertions = 0 + c.stats.evictions + (cleared + pairs.length)
    omega
  | insert key value =>
    simp only [BoundedCache.answer, BoundedCache.insert, FifoMap.clearedBy, MapCall.isGet]
    split
    · refine ⟨⟨hlookups, ?_⟩, rfl⟩
      rw [BoundedCache.size, List.length_map]
      exact hinsertions
    · obtain ⟨-, -, -, hstats, hle⟩ := h.makeRoom
      refine ⟨⟨?_, ?_⟩, ?_⟩
      · rw [hstats]
        exact hlookups
      · have hsize : c.makeRoom.entries.length = c.makeRoom.size := rfl
        simp only [BoundedCache.size, List.length_cons, hstats] at hinsertions hle hsize ⊢
        omega
      · rw [hstats]
        rfl

/-- A cache serves calls as the map does. -/
theorem Holds.serve (h : c.Holds pairs) (calls : List (MapCall κ α)) :
    (served BoundedCache.answer c calls).1 =
        (served (FifoMap.answer c.capacity) pairs calls).1 ∧
      (served BoundedCache.answer c calls).2.capacity = c.capacity ∧
      (served BoundedCache.answer c calls).2.Holds
        (served (FifoMap.answer c.capacity) pairs calls).2 := by
  induction calls generalizing c pairs with
  | nil => exact ⟨rfl, rfl, h⟩
  | cons call rest ih =>
    obtain ⟨hreply, hcapacity, hholds⟩ := h.answer call
    obtain ⟨hreplies, hcapacity', hholds'⟩ := ih hholds
    rw [hcapacity] at hreplies hcapacity' hholds'
    exact ⟨congrArg₂ List.cons hreply hreplies, hcapacity', hholds'⟩

lemma Balanced.serve {cleared : Nat} (hbalanced : c.Balanced cleared) (h : c.Holds pairs)
    (calls : List (MapCall κ α)) :
    (served BoundedCache.answer c calls).2.Balanced
        (cleared + FifoMap.cleared c.capacity pairs calls) ∧
      (served BoundedCache.answer c calls).2.stats.lookups =
        c.stats.lookups + calls.countP MapCall.isGet := by
  induction calls generalizing c pairs cleared with
  | nil => exact ⟨hbalanced, rfl⟩
  | cons call rest ih =>
    obtain ⟨hstep, hlookups⟩ := hbalanced.answer h call
    obtain ⟨-, hcapacity, hholds⟩ := h.answer call
    obtain ⟨hrest, hlookups'⟩ := ih hstep hholds
    rw [hcapacity, Nat.add_assoc] at hrest
    refine ⟨hrest, ?_⟩
    rw [List.countP_cons, Nat.add_comm (rest.countP _), ← Nat.add_assoc, ← hlookups]
    exact hlookups'

/-- A cache is a first-in-first-out map of its capacity, which is at least one. It replies to calls
as the map does, lists the keys of the map, and finds under a key that is there what the key was
given last. Every lookup is counted as a hit or a miss, and what was put in is still there, was
pushed out or was cleared away. -/
theorem served_as_fifoMap (capacity : Nat) (calls : List (MapCall κ α)) :
    let c := (served BoundedCache.answer (empty capacity) calls).2
    let pairs := (served (FifoMap.answer (max capacity 1)) [] calls).2
    (served BoundedCache.answer (empty capacity) calls).1 =
        (served (FifoMap.answer (max capacity 1)) [] calls).1 ∧
      pairs.length ≤ max capacity 1 ∧
      c.keys = pairs.map (·.1) ∧ c.keys.Nodup ∧ c.size = c.keys.length ∧
      (∀ key value, c.peek key = some value ↔ (key, value) ∈ pairs) ∧
      (∀ key ∈ c.keys, c.peek key = MapCall.lastGiven key calls) ∧
      c.stats.lookups = calls.countP MapCall.isGet ∧
      c.stats.lookups = c.stats.hits + c.stats.misses ∧
      c.stats.insertions =
        c.size + c.stats.evictions + FifoMap.cleared (max capacity 1) [] calls := by
  intro c pairs
  have hempty : (empty capacity : BoundedCache κ α).Holds [] := holds_empty capacity
  have hzero : (empty capacity : BoundedCache κ α).Balanced 0 := balanced_empty capacity
  obtain ⟨hreplies, hcapacity, hholds⟩ := hempty.serve calls
  obtain ⟨⟨hcounted, hinsertions⟩, hlookups⟩ := hzero.serve hempty calls
  rw [Nat.zero_add] at hinsertions
  have hkeys : c.keys = pairs.map (·.1) := hholds.queue
  have hsize : c.size = c.keys.length := by
    rw [hholds.size_eq, hkeys, List.length_map]
    rfl
  refine ⟨hreplies, ?_, hkeys, hkeys ▸ hholds.nodup, hsize, fun _ _ => hholds.peek_eq_some_iff,
    fun key hkey => ?_, hlookups.trans (Nat.zero_add _), hcounted, hinsertions⟩
  · have hfits := hholds.fits
    rwa [hcapacity] at hfits
  · rw [hkeys] at hkey
    obtain ⟨⟨_, value⟩, hmem, rfl⟩ := List.mem_map.mp hkey
    have hgiven := FifoMap.lastGiven_of_mem_served (fun _ => none) (by simp) calls _ hmem
    rw [Option.or_none] at hgiven
    exact (hholds.peek_eq_some_iff.mpr hmem).trans hgiven.symm

/-- A cache of no capacity has room for one pair. -/
example :
    (served BoundedCache.answer (empty 0)
        [.insert "a" 1, .insert "a" 2, .get "a", .insert "b" 3, .get "a"]).1 =
      [.value (some 1), .value (some 2), .value (some 2), .value (some 3), .value none] := by
  rfl

end BoundedCache

end TreeQuery
