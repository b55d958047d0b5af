import TreeQuery.Proofs.Matching.Naming
import TreeQuery.Proofs.Matching.Generations

/-!
# Agreement with an execution

An execution looks at one scope and one row of candidates. What a memo remembers agrees with the
execution when every outcome is what its walk finds there and every rank is right. A computation
`Gives` a value when it gives it from every memo that agrees, and leaves a memo that agrees again,
with the cells of the walks that are still open and the stages of the plans around it as they were.
-/

namespace TreeQuery

/-- What an execution of a compiled selector looks at. -/
structure Frame where
  scope : Scope
  pool : List NodeId

/-- The members of a stage in an execution. -/
def Naming.members (N : Naming) (f : Frame) : Option StageName → NodeId → Bool
  | none => fun _ => false
  | some (id, index) =>
    match N id with
    | some (.plan (.mk _ stages _ siblingLed)) =>
      stageMembers (stages.take (index + 1)) (fun _ => false) f.scope
        (f.scope.population siblingLed f.pool)
    | _ => fun _ => false

/-- What walks that are named for a test find from an element on. -/
def Naming.outcome (N : Naming) (f : Frame) (direction : Direction) (left : Test)
    (previous : Option StageName) (start : Option NodeId) : Bool :=
  f.scope.document.finds direction (left.holds (N.members f previous) f.scope) start

namespace Memo

/-- Whether all that is remembered is right in an execution. -/
structure Agrees (N : Naming) (f : Frame) (m : Memo) : Prop where
  outcome : ∀ {n direction id found left previous}, m.outcome? n direction id = some found →
    N id = some (.walk left previous) → found = N.outcome f direction left previous (some n)
  rank : ∀ {n rank}, m.rank? n = some rank →
    f.scope.document.siblingRank f.scope.xml n = some rank

/-- How a memo may differ from the memo before a computation within a plan of more than `bound`
parts. -/
structure Evolves (N : Naming) (bound : Nat) (m m' : Memo) : Prop where
  size_le : m.cells.size ≤ m'.cells.size
  cells : ∀ {i}, i < m.cells.size → m'.cells[i]? = m.cells[i]?
  stamps : ∀ {key : Nat} {stamp : Stamp}, m'.stamps[key]? = some stamp →
    stamp.cell < m.cells.size → m.stamps[key]? = some stamp
  anchors : ∀ {id plan}, N id = some (.plan plan) → bound < sizeOf plan →
    ∀ index n, m'.inAnchor id index n = m.inAnchor id index n

/-- Whether a memo is ready for tests that may refer to one stage. -/
structure Ready (N : Naming) (f : Frame) (bound : Nat) (previous : Option StageName) (m : Memo) :
    Prop where
  valid : m.Valid
  agrees : m.Agrees N f
  published : ∀ {id index}, previous = some (id, index) →
    ∃ plan, N id = some (.plan plan) ∧ bound < sizeOf plan ∧
      ∀ n, m.inAnchor id index n = N.members f previous n

variable {N : Naming} {f : Frame} {bound : Nat} {previous : Option StageName} {m m' m'' : Memo}

lemma Forgotten.agrees (h : m.Forgotten) : m.Agrees N f where
  outcome hfound := by simp [h.outcome] at hfound
  rank hrank := by simp [h.rank] at hrank

/-- A memo that has forgotten everything is ready for whatever refers to no stage. -/
theorem Forgotten.ready (h : m.Forgotten) (hvalid : m.Valid) : m.Ready N f bound none :=
  ⟨hvalid, h.agrees, by simp⟩

namespace Evolves

lemma refl (m : Memo) : m.Evolves N bound m where
  size_le := Nat.le_refl _
  cells _ := rfl
  stamps h _ := h
  anchors _ _ _ _ := rfl

lemma trans (h : m.Evolves N bound m') (h' : m'.Evolves N bound m'') : m.Evolves N bound m'' where
  size_le := Nat.le_trans h.size_le h'.size_le
  cells hi := (h'.cells (Nat.lt_of_lt_of_le hi h.size_le)).trans (h.cells hi)
  stamps hs hlt := h.stamps (h'.stamps hs (Nat.lt_of_lt_of_le hlt h.size_le)) hlt
  anchors hid hlt index n := (h'.anchors hid hlt index n).trans (h.anchors hid hlt index n)

lemma mono {larger : Nat} (h : m.Evolves N bound m') (hle : bound ≤ larger) :
    m.Evolves N larger m' :=
  { h with anchors := fun hid hlt => h.anchors hid (Nat.lt_of_le_of_lt hle hlt) }

lemma bump (m : Memo) : m.Evolves N bound m.bump := by
  unfold Memo.bump
  split
  · exact ⟨Nat.le_refl _, fun _ => rfl, by simp, fun _ _ _ _ => rfl⟩
  · exact ⟨Nat.le_refl _, fun _ => rfl, fun h _ => h, fun _ _ _ _ => rfl⟩

end Evolves

namespace Ready

lemma mono {larger : Nat} (h : m.Ready N f larger previous) (hle : bound ≤ larger) :
    m.Ready N f bound previous where
  valid := h.valid
  agrees := h.agrees
  published heq := by
    obtain ⟨plan, hid, hlt, hpub⟩ := h.published heq
    exact ⟨plan, hid, Nat.lt_of_le_of_lt hle hlt, hpub⟩

lemma evolve (h : m.Ready N f bound previous) (hev : m.Evolves N bound m') (hvalid : m'.Valid)
    (hagrees : m'.Agrees N f) : m'.Ready N f bound previous where
  valid := hvalid
  agrees := hagrees
  published heq := by
    obtain ⟨plan, hid, hlt, hpub⟩ := h.published heq
    exact ⟨plan, hid, hlt, fun n => (hev.anchors hid hlt _ n).trans (hpub n)⟩

lemma used {used : Option StageName} (h : m.Ready N f bound previous)
    (hused : used = none ∨ used = previous) : m.Ready N f bound used := by
  obtain rfl | rfl := hused
  · exact ⟨h.valid, h.agrees, by simp⟩
  · exact h

lemma closed (h : m.Ready N f bound previous) : m.Ready N f bound none := h.used (.inl rfl)

end Ready

end Memo

namespace Run

lemma bind_apply {α β : Type} (r : Run α) (g : α → Run β) (m : Memo) :
    (r >>= g) m = g (r m).1 (r m).2 :=
  rfl

lemma pure_apply {α : Type} (a : α) (m : Memo) : (pure a : Run α) m = (a, m) :=
  rfl

lemma get_apply (m : Memo) : (get : Run Memo) m = (m, m) :=
  rfl

lemma modify_apply (g : Memo → Memo) (m : Memo) : (modify g : Run PUnit) m = (⟨⟩, g m) :=
  rfl

lemma modifyGet_apply {α : Type} (g : Memo → α × Memo) (m : Memo) :
    (modifyGet g : Run α) m = g m :=
  rfl

/-- Whether a computation gives a value in an execution, from every memo that is ready. -/
def Gives (N : Naming) (f : Frame) (bound : Nat) (previous : Option StageName) {α : Type}
    (r : Run α) (value : α) : Prop :=
  ∀ m, m.Ready N f bound previous → (r m).1 = value ∧ m.Evolves N bound (r m).2 ∧
    (r m).2.Ready N f bound previous

/-- Whether a computation gives a value from every memo and forgets what it remembered. -/
def GivesApart (N : Naming) (bound : Nat) {α : Type} (r : Run α) (value : α) : Prop :=
  ∀ m, m.Valid → (r m).1 = value ∧ m.Evolves N bound (r m).2 ∧ (r m).2.Valid ∧ (r m).2.Forgotten

variable {N : Naming} {f : Frame} {bound : Nat} {previous : Option StageName} {α β : Type}

namespace Gives

lemma pure (value : α) : Gives N f bound previous (Pure.pure value) value :=
  fun m hm => ⟨rfl, .refl m, hm⟩

lemma bind {r : Run α} {g : α → Run β} {value : α} {result : β}
    (hr : Gives N f bound previous r value) (hg : Gives N f bound previous (g value) result) :
    Gives N f bound previous (r >>= g) result := by
  intro m hm
  obtain ⟨hvalue, hev, hready⟩ := hr m hm
  obtain ⟨hresult, hev', hready'⟩ := hg _ hready
  rw [bind_apply, hvalue]
  exact ⟨hresult, hev.trans hev', hready'⟩

lemma map {r : Run α} {value : α} (hr : Gives N f bound previous r value) (g : α → β) :
    Gives N f bound previous (do return g (← r)) (g value) :=
  hr.bind (Gives.pure _)

lemma mono {larger : Nat} {r : Run α} {value : α} (hr : Gives N f bound previous r value)
    (hle : bound ≤ larger) : Gives N f larger previous r value := by
  intro m hm
  obtain ⟨hvalue, hev, hready⟩ := hr m (hm.mono hle)
  have hev' := hev.mono hle
  exact ⟨hvalue, hev', hm.evolve hev' hready.valid hready.agrees⟩

lemma used {used : Option StageName} {r : Run α} {value : α} (hr : Gives N f bound used r value)
    (hused : used = none ∨ used = previous) : Gives N f bound previous r value := by
  intro m hm
  obtain ⟨hvalue, hev, hready⟩ := hr m (hm.used hused)
  exact ⟨hvalue, hev, hm.evolve hev hready.valid hready.agrees⟩

lemma filterM {p : NodeId → Run Bool} {q : NodeId → Bool} :
    ∀ {xs : List NodeId}, (∀ x ∈ xs, Gives N f bound previous (p x) (q x)) →
      Gives N f bound previous (xs.filterM p) (xs.filter q) := by
  have aux : ∀ (xs kept : List NodeId), (∀ x ∈ xs, Gives N f bound previous (p x) (q x)) →
      Gives N f bound previous (xs.filterAuxM p kept) ((xs.filter q).reverse ++ kept) := by
    intro xs
    induction xs with
    | nil => exact fun kept _ => Gives.pure kept
    | cons x xs ih =>
      intro kept hxs
      refine (hxs x (by simp)).bind ?_
      have hrest := ih (bif q x then x :: kept else kept) fun y hy => hxs y (by simp [hy])
      cases hq : q x <;> simpa [hq] using hrest
  intro xs hxs
  have h := (aux xs [] hxs).map List.reverse
  rwa [List.append_nil, List.reverse_reverse] at h

lemma anyM {p : NodeId → Run Bool} {q : NodeId → Bool} :
    ∀ {xs : List NodeId}, (∀ x ∈ xs, Gives N f bound previous (p x) (q x)) →
      Gives N f bound previous (xs.anyM p) (xs.any q) := by
  intro xs
  induction xs with
  | nil => exact fun _ => Gives.pure false
  | cons x xs ih =>
    intro hxs
    refine (hxs x (by simp)).bind ?_
    cases hq : q x with
    | true => simpa [hq] using Gives.pure true
    | false => simpa [hq] using ih fun y hy => hxs y (by simp [hy])

end Gives

namespace GivesApart

lemma gives {r : Run α} {value : α} (hr : GivesApart N bound r value) :
    Gives N f bound previous r value := by
  intro m hm
  obtain ⟨hvalue, hev, hvalid, hforgotten⟩ := hr m hm.valid
  exact ⟨hvalue, hev, hm.evolve hev hvalid hforgotten.agrees⟩

lemma map {r : Run α} {value : α} (hr : GivesApart N bound r value) (g : α → β) :
    GivesApart N bound (do return g (← r)) (g value) := by
  intro m hm
  obtain ⟨rfl, hrest⟩ := hr m hm
  exact ⟨rfl, hrest⟩

lemma mono {larger : Nat} {r : Run α} {value : α} (hr : GivesApart N bound r value)
    (hle : bound ≤ larger) : GivesApart N larger r value := by
  intro m hm
  obtain ⟨hvalue, hev, hrest⟩ := hr m hm
  exact ⟨hvalue, hev.mono hle, hrest⟩

end GivesApart

/-- Between two new generations nothing is shared with the computations around. -/
theorem Gives.bracketed {r : Run α} {value : α} (hr : Gives N f bound none r value) :
    GivesApart N bound (Run.bracketed r) value := by
  intro m hm
  have hstart : m.bump.Ready N f bound none := hm.forgotten_bump.ready hm.bump
  obtain ⟨hvalue, hev, hready⟩ := hr _ hstart
  refine ⟨hvalue, ((Memo.Evolves.bump m).trans hev).trans (Memo.Evolves.bump _), ?_, ?_⟩
  · exact hready.valid.bump
  · exact hready.valid.forgotten_bump

end Run

end TreeQuery
