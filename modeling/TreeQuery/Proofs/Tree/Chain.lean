import Mathlib.Logic.Relation
import Mathlib.Data.List.Perm.Subperm
import TreeQuery.Tree.Walk

/-!
# Chains of links

Following one kind of link from node to node gives a chain. A chain without cycles through an arena
ends within as many nodes as the arena has, and then the bound of a search along it does not show:
`seek_isSome_iff` says that a search finds something if and only if it is there.
-/

namespace TreeQuery

variable {step : NodeId → Option NodeId} {accept : NodeId → Bool}

def Linked (step : NodeId → Option NodeId) (a b : NodeId) : Prop := step a = some b

/-- Whether the chain from `start` ends within a number of nodes. -/
def Ends (step : NodeId → Option NodeId) : Nat → Option NodeId → Prop
  | _, none => True
  | 0, some _ => False
  | bound + 1, some n => Ends step bound (step n)

/-- The nodes of the chain from `start`, at most `bound` of them. -/
def chain (step : NodeId → Option NodeId) : Nat → Option NodeId → List NodeId
  | _, none => []
  | 0, some _ => []
  | bound + 1, some n => n :: chain step bound (step n)

@[simp] lemma ends_none (bound : Nat) : Ends step bound none := by
  cases bound <;> trivial

@[simp] lemma seek_none (bound : Nat) : seek step accept bound none = none := by
  cases bound <;> rfl

lemma Ends.mono {bound larger : Nat} {start : Option NodeId} (h : Ends step bound start)
    (hle : bound ≤ larger) : Ends step larger start := by
  induction bound generalizing larger start with
  | zero =>
    cases start with
    | none => simp
    | some n => exact h.elim
  | succ bound ih =>
    cases start with
    | none => simp
    | some n =>
      obtain ⟨larger, rfl⟩ : ∃ l, larger = l + 1 := ⟨larger - 1, by omega⟩
      have hnext : Ends step bound (step n) := h
      show Ends step larger (step n)
      exact ih hnext (by omega)

/-- A search does not depend on its bound once the chain ends within it. -/
theorem seek_eq_of_ends {bound larger : Nat} {start : Option NodeId} (h : Ends step bound start)
    (hle : bound ≤ larger) : seek step accept larger start = seek step accept bound start := by
  induction bound generalizing larger start with
  | zero =>
    cases start with
    | none => simp
    | some n => exact h.elim
  | succ bound ih =>
    cases start with
    | none => simp
    | some n =>
      obtain ⟨larger, rfl⟩ : ∃ l, larger = l + 1 := ⟨larger - 1, by omega⟩
      have hnext : Ends step bound (step n) := h
      simp only [seek]
      rw [ih hnext (by omega)]

/-- A search asks the first node and goes on behind it. -/
theorem seek_some_of_ends {bound : Nat} {n : NodeId} (h : Ends step bound (some n)) :
    seek step accept bound (some n) =
      if accept n then some n else seek step accept bound (step n) := by
  cases bound with
  | zero => exact h.elim
  | succ bound =>
    have hnext : Ends step bound (step n) := h
    rw [seek, seek_eq_of_ends hnext (Nat.le_succ bound)]

lemma Ends.next {bound : Nat} {n : NodeId} (h : Ends step bound (some n)) :
    Ends step bound (step n) := by
  cases bound with
  | zero => exact h.elim
  | succ bound =>
    have hnext : Ends step bound (step n) := h
    exact hnext.mono (Nat.le_succ bound)

lemma Ends.next_succ {bound : Nat} {n : NodeId} (h : Ends step (bound + 1) (some n)) :
    Ends step bound (step n) := h

lemma accept_of_seek {bound : Nat} {start : Option NodeId} {m : NodeId}
    (h : seek step accept bound start = some m) : accept m = true := by
  induction bound generalizing start with
  | zero => cases start <;> simp [seek] at h
  | succ bound ih =>
    cases start with
    | none => simp at h
    | some n =>
      simp only [seek] at h
      split at h
      · rename_i hn
        simp only [Option.some.injEq] at h
        exact h ▸ hn
      · exact ih h

/-- What a search finds lies on the chain. -/
theorem reach_of_seek {bound : Nat} {n m : NodeId}
    (h : seek step accept bound (some n) = some m) :
    Relation.ReflTransGen (Linked step) n m := by
  induction bound generalizing n with
  | zero => simp [seek] at h
  | succ bound ih =>
    simp only [seek] at h
    split at h
    · simp only [Option.some.injEq] at h
      exact h ▸ .refl
    · cases hs : step n with
      | none => simp [hs] at h
      | some k =>
        rw [hs] at h
        exact .head hs (ih h)

/-- A search along a chain that ends finds something if and only if it is there. -/
theorem seek_isSome_iff {bound : Nat} {n : NodeId} (h : Ends step bound (some n)) :
    (seek step accept bound (some n)).isSome ↔
      ∃ m, Relation.ReflTransGen (Linked step) n m ∧ accept m = true := by
  constructor
  · intro hs
    obtain ⟨m, hm⟩ := Option.isSome_iff_exists.mp hs
    exact ⟨m, reach_of_seek hm, accept_of_seek hm⟩
  · rintro ⟨m, hreach, hm⟩
    induction hreach using Relation.ReflTransGen.head_induction_on with
    | refl =>
      rw [seek_some_of_ends h]
      simp [hm]
    | @head a c hac _ ih =>
      rw [seek_some_of_ends h]
      split
      · simp
      · have hnext := h.next
        rw [show step a = some c from hac] at hnext ⊢
        exact ih hnext

lemma mem_chain_reach {bound : Nat} {n m : NodeId} (h : m ∈ chain step bound (some n)) :
    Relation.ReflTransGen (Linked step) n m := by
  induction bound generalizing n with
  | zero => simp [chain] at h
  | succ bound ih =>
    simp only [chain, List.mem_cons] at h
    obtain rfl | h := h
    · exact .refl
    · cases hs : step n with
      | none => rw [hs] at h; cases bound <;> simp [chain] at h
      | some k => exact .head hs (ih (hs ▸ h))

lemma chain_nodup (hacyclic : ∀ n, ¬ Relation.TransGen (Linked step) n n) (bound : Nat)
    (start : Option NodeId) : (chain step bound start).Nodup := by
  induction bound generalizing start with
  | zero => cases start <;> simp [chain]
  | succ bound ih =>
    cases start with
    | none => simp [chain]
    | some n =>
      simp only [chain, List.nodup_cons]
      refine ⟨fun hmem => ?_, ih _⟩
      cases hs : step n with
      | none => rw [hs] at hmem; cases bound <;> simp [chain] at hmem
      | some k => exact hacyclic n (.head' hs (mem_chain_reach (hs ▸ hmem)))

lemma length_chain_of_not_ends {bound : Nat} {start : Option NodeId}
    (h : ¬ Ends step bound start) : (chain step (bound + 1) start).length = bound + 1 := by
  induction bound generalizing start with
  | zero =>
    cases start with
    | none => simp at h
    | some n => cases hs : step n <;> simp [chain, hs]
  | succ bound ih =>
    cases start with
    | none => simp at h
    | some n =>
      have hnext : ¬ Ends step bound (step n) := h
      rw [chain, List.length_cons, ih hnext]

/-- A chain without cycles ends within the number of nodes that it can meet. -/
theorem ends_of_acyclic {size : Nat} (hstep : ∀ {a b}, step a = some b → b < size)
    (hacyclic : ∀ n, ¬ Relation.TransGen (Linked step) n n) {n : NodeId} (hn : n < size) :
    Ends step size (some n) := by
  by_contra hnot
  have hsub : chain step (size + 1) (some n) ⊆ List.range size := by
    intro m hm
    rw [List.mem_range]
    cases mem_chain_reach hm using Relation.ReflTransGen.casesOn with
    | refl => exact hn
    | tail _ hlast => exact hstep hlast
  have hlen := (List.subperm_of_subset (chain_nodup hacyclic _ _) hsub).length_le
  rw [length_chain_of_not_ends hnot, List.length_range] at hlen
  omega

lemma chain_eq_of_ends {step : NodeId → Option NodeId} {bound larger : Nat}
    {start : Option NodeId} (h : Ends step bound start) (hle : bound ≤ larger) :
    chain step larger start = chain step bound start := by
  induction bound generalizing larger start with
  | zero =>
    cases start with
    | none => cases larger <;> rfl
    | some n => exact h.elim
  | succ bound ih =>
    cases start with
    | none => cases larger <;> rfl
    | some n =>
      obtain ⟨larger, rfl⟩ : ∃ l, larger = l + 1 := ⟨larger - 1, by omega⟩
      have hnext : Ends step bound (step n) := h
      simp only [chain]
      rw [ih hnext (by omega)]

lemma exists_end_of_ends {step : NodeId → Option NodeId} {bound : Nat} {n : NodeId}
    (hends : Ends step bound (some n)) :
    ∃ m, Relation.ReflTransGen (Linked step) n m ∧ step m = none := by
  induction bound generalizing n with
  | zero => exact hends.elim
  | succ bound ih =>
    cases hn : step n with
    | none => exact ⟨n, .refl, hn⟩
    | some k =>
      have hnext := hends.next_succ
      rw [hn] at hnext
      obtain ⟨m, hreach, hm⟩ := ih hnext
      exact ⟨m, .head hn hreach, hm⟩

end TreeQuery
