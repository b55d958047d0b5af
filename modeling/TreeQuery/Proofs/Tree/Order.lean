import Mathlib.Tactic.Lemma
import TreeQuery.Tree.Order

/-!
# What sorting keeps

Putting nodes into document order keeps exactly the nodes that were there.
-/

namespace TreeQuery

lemma mem_distinct {x : NodeId} {xs : List NodeId} : x ∈ distinct xs ↔ x ∈ xs := by
  have hseen : ∀ (xs seen : List NodeId),
      x ∈ xs.foldl (fun seen x => if seen.contains x then seen else seen ++ [x]) seen ↔
        x ∈ seen ∨ x ∈ xs := by
    intro xs
    induction xs with
    | nil => simp
    | cons y rest ih =>
      intro seen
      rw [List.foldl_cons, ih, List.mem_cons]
      split
      · rename_i hy
        have hmem : y ∈ seen := List.contains_iff_mem.mp hy
        constructor
        · exact Or.imp_right .inr
        · rintro (hx | rfl | hx)
          · exact .inl hx
          · exact .inl hmem
          · exact .inr hx
      · rw [List.mem_append, List.mem_singleton, or_assoc]
  exact (hseen xs []).trans (by simp)

lemma mem_dropRepeats {x : NodeId} {xs : List NodeId} : x ∈ dropRepeats xs ↔ x ∈ xs := by
  fun_induction dropRepeats xs with
  | case1 y rest ih => simp [ih]
  | case2 y z rest hne ih => simp [ih]
  | case3 xs hxs => rfl

namespace Host

variable {h : Host}

lemma mem_sortByComparator {x : NodeId} {xs : List NodeId} :
    x ∈ h.sortByComparator xs ↔ x ∈ xs := by
  simp [sortByComparator]

lemma mem_sortByPath {x : NodeId} {xs : List NodeId} : x ∈ h.sortByPath xs ↔ x ∈ xs := by
  simp [sortByPath]

lemma mem_uniqueSort {x : NodeId} {xs : List NodeId} : x ∈ h.uniqueSort xs ↔ x ∈ xs := by
  unfold uniqueSort
  split
  · rfl
  · rw [mem_dropRepeats]
    split
    · exact mem_sortByComparator
    · exact mem_sortByPath

end Host

end TreeQuery
