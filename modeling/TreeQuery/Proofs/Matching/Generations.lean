import Mathlib.Tactic.Lemma
import TreeQuery.Proofs.Matching.Meaning

/-!
# Generations

No entry of a memo was made in a later generation than the present one, so that a new generation
forgets all of them. This holds also when the numbers of generations start again from one, since
the entries that were made under the old numbers go then.
-/

namespace TreeQuery

namespace Memo

/-- What holds of every memo: entries are not of a later generation, and the cells of stamps are
there. -/
structure Valid (m : Memo) : Prop where
  stamps_le : ∀ {key : Nat} {stamp : Stamp}, m.stamps[key]? = some stamp →
    stamp.generation ≤ m.generation
  cells_lt : ∀ {key : Nat} {stamp : Stamp}, m.stamps[key]? = some stamp → stamp.cell < m.cells.size
  ranks_le : ∀ {n : NodeId} {entry : UInt32 × SiblingRank}, m.ranks[n]? = some entry →
    entry.1 ≤ m.generation

/-- Whether nothing is remembered from this generation. -/
structure Forgotten (m : Memo) : Prop where
  outcome : ∀ n direction id, m.outcome? n direction id = none
  rank : ∀ n, m.rank? n = none

lemma valid_of_empty {m : Memo} (hstamps : m.stamps = ∅) (hranks : m.ranks = ∅) : m.Valid where
  stamps_le h := by simp [hstamps] at h
  cells_lt h := by simp [hstamps] at h
  ranks_le h := by simp [hranks] at h

lemma lt_bump_generation {g : UInt32} (h : g + 1 ≠ 0) : g < g + 1 := by
  have hlt := UInt32.toNat_lt g
  have hne : (g + 1).toNat ≠ 0 := fun h0 => h (UInt32.toNat_inj.mp h0)
  rw [UInt32.toNat_add] at hne
  rw [UInt32.lt_iff_toNat_lt, UInt32.toNat_add]
  change (g.toNat + 1) % 4294967296 ≠ 0 at hne
  change g.toNat < (g.toNat + 1) % 4294967296
  omega

lemma outcome?_eq_none {m : Memo}
    (h : ∀ {key : Nat} {stamp : Stamp}, m.stamps[key]? = some stamp →
      stamp.generation ≠ m.generation) (n : NodeId) (direction : Direction) (id : MatcherId) :
    m.outcome? n direction id = none := by
  unfold outcome?
  cases hs : m.stamps[stampKey n direction]? with
  | none => rfl
  | some stamp => simp [h hs]

lemma rank?_eq_none {m : Memo}
    (h : ∀ {n : NodeId} {entry : UInt32 × SiblingRank}, m.ranks[n]? = some entry →
      entry.1 ≠ m.generation) (n : NodeId) : m.rank? n = none := by
  unfold rank?
  cases hr : m.ranks[n]? with
  | none => rfl
  | some entry => simp [h hr]

namespace Valid

variable {m : Memo} (h : m.Valid)
include h

lemma bump : m.bump.Valid := by
  unfold Memo.bump
  split
  · exact valid_of_empty rfl rfl
  · rename_i hne
    have hlt := lt_bump_generation hne
    exact
      { stamps_le := fun hs => UInt32.le_trans (h.stamps_le hs) (UInt32.le_of_lt hlt)
        cells_lt := h.cells_lt
        ranks_le := fun hr => UInt32.le_trans (h.ranks_le hr) (UInt32.le_of_lt hlt) }

lemma forgotten_bump : m.bump.Forgotten := by
  unfold Memo.bump
  split
  · exact ⟨outcome?_eq_none (by simp), rank?_eq_none (by simp)⟩
  · rename_i hne
    have hlt := lt_bump_generation hne
    refine ⟨outcome?_eq_none fun hs heq => ?_, rank?_eq_none fun hr heq => ?_⟩
    · exact UInt32.not_lt.mpr (h.stamps_le hs) (heq ▸ hlt)
    · exact UInt32.not_lt.mpr (h.ranks_le hr) (heq ▸ hlt)

/-- What a query starts from is valid before it moves on to a new generation. -/
theorem beginQuery_eq : ∃ m' : Memo, m'.Valid ∧ m.beginQuery = m'.bump := by
  refine ⟨_, ?_, rfl⟩
  split <;> split
  · exact valid_of_empty rfl rfl
  · exact { stamps_le := by simp, cells_lt := by simp, ranks_le := h.ranks_le }
  · exact { stamps_le := h.stamps_le, cells_lt := h.cells_lt, ranks_le := by simp }
  · exact h

lemma beginQuery : m.beginQuery.Valid := by
  obtain ⟨m', hvalid, heq⟩ := h.beginQuery_eq
  exact heq ▸ hvalid.bump

lemma forgotten_beginQuery : m.beginQuery.Forgotten := by
  obtain ⟨m', hvalid, heq⟩ := h.beginQuery_eq
  exact heq ▸ hvalid.forgotten_bump

end Valid

lemma valid_reset (m : Memo) : m.reset.Valid :=
  Valid.bump (valid_of_empty rfl rfl)

lemma forgotten_reset (m : Memo) : m.reset.Forgotten :=
  Valid.forgotten_bump (valid_of_empty rfl rfl)

lemma forgotten_of_empty {m : Memo} (hstamps : m.stamps = ∅) (hranks : m.ranks = ∅) :
    m.Forgotten :=
  ⟨outcome?_eq_none (by simp [hstamps]), rank?_eq_none (by simp [hranks])⟩

end Memo

end TreeQuery
