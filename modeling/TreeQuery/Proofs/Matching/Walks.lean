import TreeQuery.Proofs.Tree.Forest
import TreeQuery.Proofs.Matching.Agreement

/-!
# Remembered walks

A walk opens a cell, stamps every element it comes by with the cell and closes the cell with its
outcome. While the cell is open, every element that is stamped with it has the outcome that the rest
of the walk will have; so what the closed cell says is right for each of them. A walk that meets an
element whose outcome is known may end there.
-/

namespace TreeQuery

lemma Document.IsForest.finds_some {d : Document} (h : d.IsForest) {direction : Direction}
    {accepts : NodeId → Bool} {n : NodeId} (hn : n < d.size) :
    d.finds direction accepts (some n) =
      (accepts n || d.finds direction accepts (d.stepTo direction n)) := by
  rw [finds, seek_some_of_ends (h.ends_stepTo direction hn), finds]
  cases accepts n <;> simp

lemma Document.finds_none {d : Document} {direction : Direction} {accepts : NodeId → Bool} :
    d.finds direction accepts none = false := by
  simp [finds]

namespace Memo

lemma stampKey_inj {n m : NodeId} {direction direction' : Direction}
    (h : stampKey n direction = stampKey m direction') : n = m ∧ direction = direction' := by
  cases direction <;> cases direction' <;> simp only [stampKey] at h
  · exact ⟨Nat.eq_of_mul_eq_mul_left Nat.two_pos h, rfl⟩
  · omega
  · omega
  · exact ⟨Nat.eq_of_mul_eq_mul_left Nat.two_pos (Nat.succ.inj h), rfl⟩

/-- Whether everything that is stamped with a cell was stamped by one walk and satisfies `ok`. -/
def Pending (m : Memo) (cell : Nat) (direction : Direction) (id : MatcherId)
    (ok : NodeId → Prop) : Prop :=
  ∀ (key : Nat) (stamp : Stamp), m.stamps[key]? = some stamp → stamp.cell = cell →
    stamp.matcher = id ∧ ∃ n, key = stampKey n direction ∧ ok n

variable {N : Naming} {f : Frame} {bound : Nat} {previous : Option StageName} {m m₀ : Memo}
  {direction : Direction} {id : MatcherId} {cell : Nat}

lemma outcome?_eq_some {n : NodeId} {found : Bool}
    (h : m.outcome? n direction id = some found) :
    ∃ stamp, m.stamps[stampKey n direction]? = some stamp ∧ stamp.generation = m.generation ∧
      stamp.matcher = id ∧ m.cells[stamp.cell]? = some (some found) := by
  unfold outcome? at h
  split at h
  · rename_i stamp hs
    split at h
    · rename_i hlive
      exact ⟨stamp, hs, hlive.1, hlive.2, Option.join_eq_some_iff.mp h⟩
    · simp at h
  · simp at h

lemma outcome?_of_stamp {n : NodeId} {stamp : Stamp} {found : Bool}
    (hs : m.stamps[stampKey n direction]? = some stamp) (hlive : stamp.generation = m.generation)
    (hcell : m.cells[stamp.cell]? = some (some found)) :
    m.outcome? n direction stamp.matcher = some found := by
  simp [outcome?, hs, hlive, hcell]

/-- Stamping an element with an open cell leaves a memo ready. -/
theorem Ready.stamp (h : m.Ready N f bound previous) (hopen : m.cells[cell]? = some none)
    (n : NodeId) (direction : Direction) (id : MatcherId) :
    (m.stamp n direction id cell).Ready N f bound previous := by
  have hlt : cell < m.cells.size := (Array.getElem?_eq_some_iff.mp hopen).1
  have hcases : ∀ {key : Nat} {stamp : Stamp}, (m.stamp n direction id cell).stamps[key]? =
      some stamp → stamp = ⟨m.generation, id, cell⟩ ∨ m.stamps[key]? = some stamp := by
    intro key stamp hs
    rw [Memo.stamp, Std.TreeMap.getElem?_insert] at hs
    split at hs
    · exact .inl (Option.some.inj hs).symm
    · exact .inr hs
  refine ⟨⟨fun hs => ?_, fun hs => ?_, h.valid.ranks_le⟩, ⟨fun hfound hid => ?_, ?_⟩, h.published⟩
  · obtain rfl | hs := hcases hs
    · exact UInt32.le_refl _
    · exact h.valid.stamps_le hs
  · obtain rfl | hs := hcases hs
    · exact hlt
    · exact h.valid.cells_lt hs
  · obtain ⟨stamp, hs, hlive, rfl, hcell⟩ := outcome?_eq_some hfound
    obtain rfl | hs := hcases hs
    · have hnone : some none = some (some _) := hopen.symm.trans hcell
      simp at hnone
    · exact h.agrees.outcome (outcome?_of_stamp hs hlive hcell) hid
  · exact h.agrees.rank

lemma Evolves.stamp (h : m₀.Evolves N bound m) (n : NodeId) (direction : Direction)
    (id : MatcherId) : m₀.Evolves N bound (m.stamp n direction id m₀.cells.size) := by
  refine ⟨h.size_le, h.cells, fun hs hlt => ?_, h.anchors⟩
  rw [Memo.stamp, Std.TreeMap.getElem?_insert] at hs
  split at hs
  · rw [← Option.some.inj hs] at hlt
    exact absurd hlt (Nat.lt_irrefl _)
  · exact h.stamps hs hlt

lemma Pending.stamp {ok : NodeId → Prop} (h : m.Pending cell direction id ok) {n : NodeId}
    (hn : ok n) : (m.stamp n direction id cell).Pending cell direction id ok := by
  intro key stamp hs hcell
  rw [Memo.stamp, Std.TreeMap.getElem?_insert] at hs
  split at hs
  · rename_i hkey
    rw [← Option.some.inj hs]
    exact ⟨rfl, n, (Std.LawfulEqCmp.eq_of_compare hkey).symm, hn⟩
  · exact h key stamp hs hcell

lemma Pending.evolve {ok : NodeId → Prop} {m' : Memo} (h : m.Pending cell direction id ok)
    (hlt : cell < m.cells.size) (hev : m.Evolves N bound m') :
    m'.Pending cell direction id ok := fun key stamp hs hcell =>
  h key stamp (hev.stamps hs (hcell ▸ hlt)) hcell

lemma Evolves.openCell (m : Memo) : m.Evolves N bound m.openCell.2 := by
  refine ⟨?_, fun hi => ?_, fun hs _ => hs, fun _ _ _ _ => rfl⟩
  · simp [Memo.openCell]
  · simp [Memo.openCell, Array.getElem?_push, Nat.ne_of_lt hi]

lemma Ready.openCell (h : m.Ready N f bound previous) :
    m.openCell.2.Ready N f bound previous := by
  refine ⟨⟨h.valid.stamps_le, fun hs => ?_, h.valid.ranks_le⟩, ⟨fun hfound hid => ?_, ?_⟩,
    h.published⟩
  · have hlt := h.valid.cells_lt hs
    simp only [Memo.openCell, Array.size_push]
    omega
  · obtain ⟨stamp, hs, hlive, rfl, hcell⟩ := outcome?_eq_some hfound
    have hs' : m.stamps[stampKey _ _]? = some stamp := hs
    have hev : m.Evolves N bound m.openCell.2 := .openCell m
    rw [hev.cells (h.valid.cells_lt hs')] at hcell
    exact h.agrees.outcome (outcome?_of_stamp hs' hlive hcell) hid
  · exact h.agrees.rank

lemma pending_openCell {ok : NodeId → Prop} (h : m.Valid) :
    m.openCell.2.Pending m.cells.size direction id ok := fun _ _ hs hcell =>
  absurd (h.cells_lt hs) (by omega)

lemma getElem?_openCell (m : Memo) : m.openCell.2.cells[m.cells.size]? = some none := by
  simp [Memo.openCell]

lemma Evolves.closeCell (h : m₀.Evolves N bound m) (outcome : Bool) :
    m₀.Evolves N bound (m.closeCell m₀.cells.size outcome) := by
  refine ⟨?_, fun hi => ?_, h.stamps, h.anchors⟩
  · simpa [Memo.closeCell] using h.size_le
  · have hne : m₀.cells.size ≠ _ := Nat.ne_of_gt hi
    simp only [Memo.closeCell]
    rw [Array.getElem?_setIfInBounds_ne hne]
    exact h.cells hi

/-- Closing a cell with the outcome that everything stamped with it has leaves a memo ready. -/
theorem Ready.closeCell {left : Test} {used : Option StageName} {outcome : Bool}
    (h : m.Ready N f bound previous) (hlt : cell < m.cells.size)
    (hid : N id = some (.walk left used))
    (hpending : m.Pending cell direction id
      fun n => N.outcome f direction left used (some n) = outcome) :
    (m.closeCell cell outcome).Ready N f bound previous := by
  refine ⟨⟨h.valid.stamps_le, fun hs => ?_, h.valid.ranks_le⟩, ⟨fun hfound hid' => ?_, ?_⟩,
    h.published⟩
  · simpa [Memo.closeCell] using h.valid.cells_lt hs
  · obtain ⟨stamp, hs, hlive, rfl, hcell⟩ := outcome?_eq_some hfound
    have hs' : m.stamps[stampKey _ _]? = some stamp := hs
    simp only [Memo.closeCell] at hcell
    by_cases heq : cell = stamp.cell
    · obtain ⟨rfl, n, hkey, hn⟩ := hpending _ _ hs' heq.symm
      obtain ⟨rfl, rfl⟩ := stampKey_inj hkey
      rw [hid] at hid'
      obtain ⟨rfl, rfl⟩ := Named.walk.inj (Option.some.inj hid')
      rw [heq, Array.getElem?_setIfInBounds_self_of_lt (heq ▸ hlt)] at hcell
      rw [hn, Option.some.inj (Option.some.inj hcell)]
    · rw [Array.getElem?_setIfInBounds_ne heq] at hcell
      exact h.agrees.outcome (outcome?_of_stamp hs' hlive hcell) hid'
  · exact h.agrees.rank

end Memo

namespace Run

section Walk

lemma walk_some_none {d : Document} {direction : Direction} {id : MatcherId}
    {accepts : NodeId → Run Bool} {steps : Nat} {n : NodeId} :
    walk d direction id accepts none (steps + 1) (some n) = (do
      if ← accepts n then pure true
      else walk d direction id accepts none steps (d.stepTo direction n)) :=
  rfl

lemma walk_known {d : Document} {direction : Direction} {id : MatcherId}
    {accepts : NodeId → Run Bool} {cell steps : Nat} {n : NodeId} {m : Memo} {found : Bool}
    (h : m.outcome? n direction id = some found) :
    walk d direction id accepts (some cell) (steps + 1) (some n) m = (found, m) := by
  simp only [walk, bind_apply, get_apply, h, pure_apply]

lemma walk_unknown {d : Document} {direction : Direction} {id : MatcherId}
    {accepts : NodeId → Run Bool} {cell steps : Nat} {n : NodeId} {m : Memo}
    (h : m.outcome? n direction id = none) :
    walk d direction id accepts (some cell) (steps + 1) (some n) m =
      (accepts n >>= fun found =>
        if found then pure true
        else walk d direction id accepts (some cell) steps (d.stepTo direction n))
        (m.stamp n direction id cell) := by
  simp only [walk, bind_apply, get_apply, h, modify_apply, pure_apply]

variable {N : Naming} {f : Frame} {bound : Nat} {used : Option StageName} {id : MatcherId}
  {left : Test} {accepts : NodeId → Run Bool}

/-- A walk that keeps nothing asks every element on its way. -/
theorem walk_gives (hforest : f.scope.document.IsForest) (direction : Direction)
    (haccepts : ∀ n, f.scope.document.isElement n = true →
      Gives N f bound used (accepts n) (left.holds (N.members f used) f.scope n)) :
    ∀ {steps : Nat} {next : Option NodeId}, Ends (f.scope.document.stepTo direction) steps next →
      (∀ n, next = some n → f.scope.document.isElement n = true) →
      Gives N f bound used (walk f.scope.document direction id accepts none steps next)
        (N.outcome f direction left used next) := by
  intro steps
  induction steps with
  | zero =>
    intro next hends _
    cases next with
    | none => simpa [walk, Naming.outcome, Document.finds_none] using Gives.pure false
    | some n => exact hends.elim
  | succ steps ih =>
    intro next hends helem
    cases next with
    | none => simpa [walk, Naming.outcome, Document.finds_none] using Gives.pure false
    | some n =>
      have hn := helem n rfl
      have hrest := ih hends.next_succ fun k hk => Document.isElement_of_stepTo hk
      rw [Naming.outcome, hforest.finds_some (Document.lt_size_of_isElement hn)]
      rw [walk_some_none]
      refine (haccepts n hn).bind ?_
      cases left.holds (N.members f used) f.scope n with
      | true => exact Gives.pure true
      | false => exact hrest

/-- What holds during a walk from `next` on: its cell is the first after those of `m₀`, and every
element that is stamped with it has the outcome that the walk will have. -/
structure Walking (N : Naming) (f : Frame) (bound : Nat) (direction : Direction) (id : MatcherId)
    (left : Test) (used : Option StageName) (m₀ m : Memo) (outcome : Bool) : Prop where
  ready : m.Ready N f bound used
  evolves : m₀.Evolves N bound m
  isOpen : m.cells[m₀.cells.size]? = some none
  pending : m.Pending m₀.cells.size direction id
    fun n => N.outcome f direction left used (some n) = outcome

lemma walking_openCell {m : Memo} (hready : m.Ready N f bound used) (direction : Direction)
    (outcome : Bool) : Walking N f bound direction id left used m m.openCell.2 outcome where
  ready := hready.openCell
  evolves := .openCell m
  isOpen := m.getElem?_openCell
  pending := Memo.pending_openCell hready.valid

namespace Walking

variable {direction : Direction} {m₀ m m' : Memo} {outcome : Bool}

lemma lt_size (h : Walking N f bound direction id left used m₀ m outcome) :
    m₀.cells.size < m.cells.size :=
  (Array.getElem?_eq_some_iff.mp h.isOpen).1

lemma stamp {n : NodeId}
    (h : Walking N f bound direction id left used m₀ m
      (N.outcome f direction left used (some n))) :
    Walking N f bound direction id left used m₀ (m.stamp n direction id m₀.cells.size)
      (N.outcome f direction left used (some n)) where
  ready := h.ready.stamp h.isOpen n direction id
  evolves := h.evolves.stamp n direction id
  isOpen := h.isOpen
  pending := h.pending.stamp rfl

lemma evolve (h : Walking N f bound direction id left used m₀ m outcome)
    (hev : m.Evolves N bound m') (hready : m'.Ready N f bound used) :
    Walking N f bound direction id left used m₀ m' outcome where
  ready := hready
  evolves := h.evolves.trans hev
  isOpen := (hev.cells h.lt_size).trans h.isOpen
  pending := h.pending.evolve h.lt_size hev

lemma closeCell (h : Walking N f bound direction id left used m₀ m outcome)
    (hid : N id = some (.walk left used)) :
    m₀.Evolves N bound (m.closeCell m₀.cells.size outcome) ∧
      (m.closeCell m₀.cells.size outcome).Ready N f bound used :=
  ⟨h.evolves.closeCell outcome, h.ready.closeCell h.lt_size hid h.pending⟩

end Walking

/-- A walk with a cell finds what a walk without memory would find. -/
theorem walk_cell (hforest : f.scope.document.IsForest) (hid : N id = some (.walk left used))
    (direction : Direction)
    (haccepts : ∀ n, f.scope.document.isElement n = true →
      Gives N f bound used (accepts n) (left.holds (N.members f used) f.scope n)) (m₀ : Memo) :
    ∀ {steps : Nat} {next : Option NodeId} (m : Memo),
      Ends (f.scope.document.stepTo direction) steps next →
      (∀ n, next = some n → f.scope.document.isElement n = true) →
      Walking N f bound direction id left used m₀ m (N.outcome f direction left used next) →
      let result := walk f.scope.document direction id accepts (some m₀.cells.size) steps next m
      result.1 = N.outcome f direction left used next ∧
        Walking N f bound direction id left used m₀ result.2
          (N.outcome f direction left used next) := by
  intro steps
  induction steps with
  | zero =>
    intro next m hends _ hwalking
    cases next with
    | none => exact ⟨Document.finds_none.symm, hwalking⟩
    | some n => exact hends.elim
  | succ steps ih =>
    intro next m hends helem hwalking
    cases next with
    | none => exact ⟨Document.finds_none.symm, hwalking⟩
    | some n =>
      have hn := helem n rfl
      cases hknown : m.outcome? n direction id with
      | some found =>
        rw [walk_known hknown]
        exact ⟨hwalking.ready.agrees.outcome hknown hid, hwalking⟩
      | none =>
        rw [walk_unknown hknown]
        obtain ⟨hvalue, hev, hready⟩ := haccepts n hn _ hwalking.stamp.ready
        have hnext := hwalking.stamp.evolve hev hready
        have hstep : N.outcome f direction left used (some n) =
            (left.holds (N.members f used) f.scope n ||
              N.outcome f direction left used (f.scope.document.stepTo direction n)) :=
          hforest.finds_some (Document.lt_size_of_isElement hn)
        rw [bind_apply, hvalue]
        cases hholds : left.holds (N.members f used) f.scope n with
        | true =>
          rw [hholds, Bool.true_or] at hstep
          exact ⟨hstep.symm, hnext⟩
        | false =>
          rw [hholds, Bool.false_or] at hstep
          rw [hstep] at hnext ⊢
          exact ih _ hends.next_succ (fun k hk => Document.isElement_of_stepTo hk) hnext

/-- A walk that keeps its outcome opens a cell before it starts and closes it in the end. -/
theorem related_apply {d : Document} {c : Combinator} (hdirect : c.isDirect = false)
    {accepts : NodeId → Run Bool} {n : NodeId} (m : Memo) :
    related d c id accepts n m =
      if m.walkCache then
        let r := walk d c.direction id accepts (some m.cells.size) d.size
          (d.stepTo c.direction n) m.openCell.2
        (r.1, r.2.closeCell m.cells.size r.1)
      else walk d c.direction id accepts none d.size (d.stepTo c.direction n) m := by
  simp only [related, hdirect, Bool.false_eq_true, if_false]
  cases hcache : m.walkCache <;>
    simp only [bind_apply, get_apply, pure_apply, modify_apply, modifyGet_apply, hcache,
      Memo.openCell, Bool.false_eq_true, if_true, if_false]

lemma related_gives (hforest : f.scope.document.IsForest) (hid : N id = some (.walk left used))
    (haccepts : ∀ n, f.scope.document.isElement n = true →
      Gives N f bound used (accepts n) (left.holds (N.members f used) f.scope n))
    (c : Combinator) (n : NodeId) :
    Gives N f bound used (related f.scope.document c id accepts n)
      (f.scope.document.relates c (left.holds (N.members f used) f.scope) n) := by
  have helem : ∀ k, f.scope.document.stepTo c.direction n = some k →
      f.scope.document.isElement k = true := fun k hk => Document.isElement_of_stepTo hk
  cases hdirect : c.isDirect with
  | true =>
    simp only [related, hdirect, if_true, Document.relates]
    cases hnext : f.scope.document.stepTo c.direction n with
    | none => exact Gives.pure false
    | some k => exact haccepts k (helem k hnext)
  | false =>
    have hends := hforest.ends_step c.direction n
    simp only [Document.relates, hdirect, Bool.false_eq_true, if_false]
    intro m hm
    rw [related_apply hdirect]
    split
    · have hstart : Walking N f bound c.direction id left used m m.openCell.2
          (N.outcome f c.direction left used (f.scope.document.stepTo c.direction n)) :=
        walking_openCell hm c.direction _
      obtain ⟨hvalue, hwalking⟩ := walk_cell hforest hid c.direction haccepts m _ hends helem hstart
      obtain ⟨hev, hready⟩ := hwalking.closeCell hid
      dsimp only
      rw [hvalue]
      exact ⟨rfl, hev, hready⟩
    · exact walk_gives hforest c.direction haccepts hends helem m hm

end Walk

end Run

end TreeQuery
