import Mathlib.Tactic.Lemma
import TreeQuery.Cache

/-!
# Entries of bounded caches

What a cache gives back was put in under the same key, and what is in a cache was there before or
has just been put in.
-/

namespace TreeQuery

namespace BoundedCache

variable {κ α : Type}

@[simp] lemma entries_clear (c : BoundedCache κ α) : c.clear.entries = [] :=
  rfl

@[simp] lemma entries_empty (capacity : Nat) :
    (empty capacity : BoundedCache κ α).entries = [] :=
  rfl

variable [DecidableEq κ] {c : BoundedCache κ α} {key : κ} {value : α}

lemma mem_of_peek (h : c.peek key = some value) : (key, value) ∈ c.entries := by
  obtain ⟨entry, hentry, rfl⟩ := Option.map_eq_some_iff.mp h
  have hkey : entry.1 = key := by simpa using List.find?_some hentry
  exact hkey ▸ List.mem_of_find?_eq_some hentry

lemma mem_of_get (h : (c.get key).1 = some value) : (key, value) ∈ c.entries :=
  mem_of_peek h

@[simp] lemma entries_get (c : BoundedCache κ α) (key : κ) : (c.get key).2.entries = c.entries :=
  rfl

lemma entries_makeRoom_go_sublist (queue : List κ) (c : BoundedCache κ α) :
    (makeRoom.go queue c).entries.Sublist c.entries := by
  induction queue generalizing c with
  | nil => exact List.Sublist.refl _
  | cons oldest queue ih =>
    rw [makeRoom.go]
    split
    · exact List.Sublist.refl _
    · exact (ih _).trans List.filter_sublist

lemma mem_of_mem_insert {entry : κ × α} (h : entry ∈ (c.insert key value).entries) :
    entry = (key, value) ∨ entry ∈ c.entries := by
  unfold insert at h
  split at h
  · obtain ⟨old, hold, rfl⟩ := List.mem_map.mp h
    split
    · exact .inl rfl
    · exact .inr hold
  · exact (List.mem_cons.mp h).imp_right fun h => (entries_makeRoom_go_sublist _ c).mem h

end BoundedCache

end TreeQuery
