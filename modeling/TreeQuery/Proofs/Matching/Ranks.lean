import Mathlib.Data.List.Nodup
import Mathlib.Data.List.Induction
import TreeQuery.Proofs.Tree.Forest
import TreeQuery.Proofs.Matching.Agreement

/-!
# Remembered ranks

One pass over the children of a node gives each element child its rank, and what is recorded for a
child is the rank that a search among its siblings finds.
-/

namespace TreeQuery

lemma length_occurrences (counts : List (String × Nat)) (tags : List String) :
    (occurrences counts tags).length = tags.length := by
  induction tags generalizing counts with
  | nil => rfl
  | cons tag rest ih =>
    rw [occurrences]
    simp [ih]

/-- Ranks are given to the children in their order. -/
theorem rankSiblings_keys (children : List (NodeId × String)) :
    (rankSiblings children).map (·.1) = children.map (·.1) := by
  apply List.ext_getElem
  · simp [rankSiblings, length_occurrences]
  · intro i hi hi'
    simp [rankSiblings]

lemma Document.childRanks_keys (d : Document) (xml : Bool) (p : NodeId) :
    (d.childRanks xml p).map (·.1) = (d.children p).filter d.isElement := by
  rw [childRanks, rankSiblings_keys, List.map_map]
  exact List.map_id' _

namespace Document.IsForest

variable {d : Document} (h : d.IsForest)
include h

lemma mem_childRanks {xml : Bool} {p n : NodeId} {rank : SiblingRank}
    (hmem : (n, rank) ∈ d.childRanks xml p) : d.parent n = some p := by
  have hkey : n ∈ (d.childRanks xml p).map (·.1) := List.mem_map_of_mem hmem
  rw [childRanks_keys] at hkey
  exact h.mem_children.mp (List.mem_filter.mp hkey).1

lemma nodup_childRanks (xml : Bool) (p : NodeId) :
    ((d.childRanks xml p).map (·.1)).Nodup := by
  rw [childRanks_keys]
  exact (h.nodup_children p).filter _

/-- The rank that the pass over the children gives is the one that a search finds. -/
theorem siblingRank_of_mem {xml : Bool} {p n : NodeId} {rank : SiblingRank}
    (hmem : (n, rank) ∈ d.childRanks xml p) : d.siblingRank xml n = some rank := by
  rw [siblingRank, h.mem_childRanks hmem, Option.bind_some]
  cases hfind : (d.childRanks xml p).find? fun entry => entry.1 = n with
  | none =>
    have hnot := List.find?_eq_none.mp hfind _ hmem
    simp at hnot
  | some entry =>
    have hkey : entry.1 = n := by simpa using List.find?_some hfind
    have heq : entry = (n, rank) :=
      List.inj_on_of_nodup_map (h.nodup_childRanks xml p) (List.mem_of_find?_eq_some hfind) hmem
        hkey
    rw [heq]
    rfl

lemma exists_mem_childRanks {xml : Bool} {p n : NodeId} (hparent : d.parent n = some p)
    (helem : d.isElement n = true) : ∃ rank, (n, rank) ∈ d.childRanks xml p := by
  have hkey : n ∈ (d.childRanks xml p).map (·.1) := by
    rw [childRanks_keys, List.mem_filter]
    exact ⟨h.mem_children.mpr hparent, helem⟩
  obtain ⟨⟨_, rank⟩, hmem, rfl⟩ := List.mem_map.mp hkey
  exact ⟨rank, hmem⟩

end Document.IsForest

namespace Memo

variable {N : Naming} {f : Frame} {bound : Nat} {previous : Option StageName} {m : Memo}

/-- Recording ranks changes the table at the recorded nodes alone. -/
theorem getElem?_recordRanks (ranks : List (NodeId × SiblingRank)) (n : NodeId) :
    (∃ rank, (n, rank) ∈ ranks ∧ (m.recordRanks ranks).ranks[n]? = some (m.generation, rank)) ∨
      (∀ rank, (n, rank) ∉ ranks) ∧ (m.recordRanks ranks).ranks[n]? = m.ranks[n]? := by
  simp only [recordRanks]
  induction ranks using List.reverseRecOn with
  | nil => exact .inr (by simp)
  | append_singleton ranks entry ih =>
    obtain ⟨k, rank⟩ := entry
    rw [List.foldl_append]
    simp only [List.foldl_cons, List.foldl_nil, Std.TreeMap.getElem?_insert]
    by_cases hk : k = n
    · subst hk
      exact .inl ⟨rank, by simp, by simp⟩
    · have hcmp : compare k n ≠ .eq := fun heq => hk (Std.LawfulEqCmp.eq_of_compare heq)
      rw [if_neg hcmp]
      refine ih.imp (fun ⟨found, hmem, hget⟩ => ⟨found, by simp [hmem], hget⟩)
        fun ⟨hnot, hget⟩ => ?_
      refine ⟨fun found hmem => ?_, hget⟩
      obtain hmem | hmem := List.mem_append.mp hmem
      · exact hnot found hmem
      · exact hk (Prod.mk.inj (List.mem_singleton.mp hmem)).1.symm

/-- Whether the ranks that a memo holds are right for a document. -/
structure RanksHold (d : Document) (xml : Bool) (m : Memo) : Prop where
  le : ∀ {n : NodeId} {entry : UInt32 × SiblingRank}, m.ranks[n]? = some entry →
    entry.1 ≤ m.generation
  right : ∀ {n rank}, m.rank? n = some rank → d.siblingRank xml n = some rank

lemma Ready.ranksHold (h : m.Ready N f bound previous) :
    m.RanksHold f.scope.document f.scope.xml :=
  ⟨h.valid.ranks_le, h.agrees.rank⟩

/-- What is recorded is of the present generation. -/
theorem le_recordRanks {ranks : List (NodeId × SiblingRank)}
    (hle : ∀ {n : NodeId} {entry : UInt32 × SiblingRank}, m.ranks[n]? = some entry →
      entry.1 ≤ m.generation)
    {n : NodeId} {entry : UInt32 × SiblingRank} (hr : (m.recordRanks ranks).ranks[n]? = some entry) :
    entry.1 ≤ m.generation := by
  obtain ⟨rank, _, hget⟩ | ⟨_, hget⟩ := m.getElem?_recordRanks ranks n
  · rw [hget] at hr
    rw [← Option.some.inj hr]
    exact UInt32.le_refl _
  · exact hle (hget ▸ hr)

/-- A recorded rank is right, and so is what was recorded before. -/
theorem RanksHold.recordRanks {d : Document} {xml : Bool} (h : m.RanksHold d xml)
    (hforest : d.IsForest) (p : NodeId) : (m.recordRanks (d.childRanks xml p)).RanksHold d xml := by
  refine ⟨le_recordRanks h.le, fun {n rank} hrank => ?_⟩
  obtain ⟨found, hmem, hget⟩ | ⟨_, hget⟩ := m.getElem?_recordRanks _ n
  · rw [rank?, hget] at hrank
    have heq : found = rank := by simpa [Memo.recordRanks] using hrank
    exact heq ▸ hforest.siblingRank_of_mem hmem
  · refine h.right ?_
    rw [rank?, hget] at hrank
    exact hrank

lemma Ready.recordRanks (h : m.Ready N f bound previous) (hforest : f.scope.document.IsForest)
    (p : NodeId) :
    (m.recordRanks (f.scope.document.childRanks f.scope.xml p)).Ready N f bound previous :=
  have hranks := h.ranksHold.recordRanks hforest p
  ⟨⟨h.valid.stamps_le, h.valid.cells_lt, hranks.le⟩, ⟨h.agrees.outcome, hranks.right⟩, h.published⟩

lemma siblingRank_known {d : Document} {xml : Bool} {n : NodeId} {rank : SiblingRank}
    (h : m.rank? n = some rank) : m.siblingRank d xml n = (some rank, m) := by
  rw [siblingRank, h]

lemma siblingRank_orphan {d : Document} {xml : Bool} {n : NodeId} (h : m.rank? n = none)
    (hparent : d.parent n = none) : m.siblingRank d xml n = (none, m) := by
  rw [siblingRank, h, hparent]

lemma siblingRank_child {d : Document} {xml : Bool} {n p : NodeId} (h : m.rank? n = none)
    (hparent : d.parent n = some p) :
    m.siblingRank d xml n =
      (((m.recordRanks (d.childRanks xml p)).ranks[n]?).map (·.2),
        m.recordRanks (d.childRanks xml p)) := by
  rw [siblingRank, h, hparent]

/-- A query finds the rank of an element, and what it leaves is right again. -/
theorem RanksHold.siblingRank {d : Document} {xml : Bool} (h : m.RanksHold d xml)
    (hforest : d.IsForest) (n : NodeId) :
    (d.isElement n = true → (m.siblingRank d xml n).1 = d.siblingRank xml n) ∧
      (m.siblingRank d xml n).2.RanksHold d xml := by
  cases hknown : m.rank? n with
  | some rank =>
    rw [siblingRank_known hknown]
    exact ⟨fun _ => (h.right hknown).symm, h⟩
  | none =>
    cases hparent : d.parent n with
    | none =>
      rw [siblingRank_orphan hknown hparent]
      exact ⟨fun _ => by simp [Document.siblingRank, hparent], h⟩
    | some p =>
      rw [siblingRank_child hknown hparent]
      refine ⟨fun helem => ?_, h.recordRanks hforest p⟩
      obtain ⟨rank, hmem⟩ : ∃ rank, (n, rank) ∈ d.childRanks xml p :=
        hforest.exists_mem_childRanks hparent helem
      obtain ⟨found, hfound, hget⟩ | ⟨hnot, _⟩ := m.getElem?_recordRanks (d.childRanks xml p) n
      · rw [hget, hforest.siblingRank_of_mem hfound]
        rfl
      · exact absurd hmem (hnot rank)

/-- A new generation forgets the ranks, so that they are right for any document. -/
theorem ranksHold_bump {d : Document} {xml : Bool}
    (hle : ∀ {n : NodeId} {entry : UInt32 × SiblingRank}, m.ranks[n]? = some entry →
      entry.1 ≤ m.generation) : m.bump.RanksHold d xml := by
  unfold Memo.bump
  split
  · exact ⟨by simp, by simp [rank?]⟩
  · rename_i hne
    have hlt := lt_bump_generation hne
    have hnone : ∀ n, Memo.rank? { m with generation := m.generation + 1 } n = none :=
      rank?_eq_none fun hr heq => UInt32.not_lt.mpr (hle hr) (heq ▸ hlt)
    refine ⟨fun hr => UInt32.le_trans (hle hr) (UInt32.le_of_lt hlt), fun {n rank} hrank => ?_⟩
    rw [hnone n] at hrank
    cases hrank

/-- The memos that queries about the ranks in a document leave behind. At the start of a history and
when a table has grown too large there are no ranks; walks and staged plans change neither the ranks
nor the generation; and another document is asked about only in another generation. -/
inductive RankHistory : Document → Bool → Memo → Prop where
  | start {d xml m} (hranks : m.ranks = ∅) : RankHistory d xml m
  | query {d xml m} (h : RankHistory d xml m) (n : NodeId) :
    RankHistory d xml (m.siblingRank d xml n).2
  | other {d xml m m'} (h : RankHistory d xml m) (hgeneration : m'.generation = m.generation)
    (hranks : m'.ranks = m.ranks) : RankHistory d xml m'
  | bump {d xml m} (h : RankHistory d xml m) (d' : Document) (xml' : Bool) :
    RankHistory d' xml' m.bump

namespace RankHistory

variable {d : Document} {xml : Bool}

lemma le (h : m.RankHistory d xml) {n : NodeId} {entry : UInt32 × SiblingRank}
    (hr : m.ranks[n]? = some entry) : entry.1 ≤ m.generation := by
  induction h generalizing n entry with
  | start hranks => simp [hranks] at hr
  | @query d xml m h k ih =>
    cases hknown : m.rank? k with
    | some rank =>
      rw [siblingRank_known hknown] at hr ⊢
      exact ih hr
    | none =>
      cases hparent : d.parent k with
      | none =>
        rw [siblingRank_orphan hknown hparent] at hr ⊢
        exact ih hr
      | some p =>
        rw [siblingRank_child hknown hparent] at hr ⊢
        exact le_recordRanks ih hr
  | other h hgeneration hranks ih =>
    rw [hgeneration]
    exact ih (hranks ▸ hr)
  | bump h d' xml' ih => exact (@ranksHold_bump _ d' xml' ih).le hr

/-- Whatever happened before, the ranks that a memo holds are right. -/
theorem ranksHold (h : m.RankHistory d xml) (hforest : d.IsForest) : m.RanksHold d xml := by
  induction h with
  | start hranks => exact ⟨by simp [hranks], by simp [rank?, hranks]⟩
  | query h n ih => exact ((ih hforest).siblingRank hforest n).2
  | other h hgeneration hranks ih =>
    refine ⟨fun hr => hgeneration ▸ (ih hforest).le (hranks ▸ hr), fun {n rank} hrank => ?_⟩
    rw [rank?, hranks, hgeneration] at hrank
    exact (ih hforest).right hrank
  | bump h d' xml' ih => exact ranksHold_bump h.le

lemma beginQuery (h : m.RankHistory d xml) (d' : Document) (xml' : Bool) :
    m.beginQuery.RankHistory d' xml' := by
  refine @RankHistory.bump d xml _ ?_ d' xml'
  split <;> split
  · exact .start rfl
  · exact .other h rfl rfl
  · exact .start rfl
  · exact h

lemma reset (m : Memo) (d' : Document) (xml' : Bool) : m.reset.RankHistory d' xml' :=
  @RankHistory.bump d' xml' _ (.start rfl) d' xml'

end RankHistory

end Memo

namespace Run

variable {N : Naming} {f : Frame} {bound : Nat} {previous : Option StageName}

lemma siblingRank_gives (hforest : f.scope.document.IsForest) {n : NodeId}
    (helem : f.scope.document.isElement n = true) :
    Gives N f bound previous
      (modifyGet fun m => m.siblingRank f.scope.document f.scope.xml n)
      (f.scope.document.siblingRank f.scope.xml n) := by
  intro m hm
  change (m.siblingRank f.scope.document f.scope.xml n).1 = _ ∧
    m.Evolves N bound (m.siblingRank f.scope.document f.scope.xml n).2 ∧
    (m.siblingRank f.scope.document f.scope.xml n).2.Ready N f bound previous
  refine ⟨(hm.ranksHold.siblingRank hforest n).1 helem, ?_⟩
  cases hknown : m.rank? n with
  | some rank =>
    rw [Memo.siblingRank_known hknown]
    exact ⟨.refl m, hm⟩
  | none =>
    cases hparent : f.scope.document.parent n with
    | none =>
      rw [Memo.siblingRank_orphan hknown hparent]
      exact ⟨.refl m, hm⟩
    | some p =>
      rw [Memo.siblingRank_child hknown hparent]
      exact ⟨⟨Nat.le_refl _, fun _ => rfl, fun h _ => h, fun _ _ _ _ => rfl⟩,
        hm.recordRanks hforest p⟩

lemma ranked_gives (hforest : f.scope.document.IsForest) (p : StructuralPosition) {n : NodeId}
    (helem : f.scope.document.isElement n = true) :
    Gives N f bound previous (ranked f.scope p n) (f.scope.stands p n) := by
  unfold ranked Scope.stands
  split
  · exact Gives.pure _
  · refine (siblingRank_gives hforest helem).bind ?_
    cases f.scope.document.siblingRank f.scope.xml n with
    | none => exact Gives.pure false
    | some rank => exact Gives.pure _

end Run

end TreeQuery
