import TreeQuery.SelectorError
import TreeQuery.Proofs.Matching.Naming

/-!
# Computations that give names

A computation may fail, and it may give names to walks and plans, which are counted. It follows a
plain computation when it ends in a related value or in the same error, and leaves a state that is
sound for what names stand for then; what they stood for before, they stand for still.
-/

namespace TreeQuery

/-- How a naming grows while the count of names does. -/
structure Naming.Grows (N : Naming) (count : Nat) (N' : Naming) (count' : Nat) : Prop where
  keeps : N'.Extends N
  le : count ≤ count'
  fresh : ∀ {id}, N id = none → N' id ≠ none → count < id.toNat

namespace Naming.Grows

variable {N N' N'' : Naming} {count count' count'' : Nat}

lemma refl (N : Naming) (count : Nat) : N.Grows count N count where
  keeps _ _ h := h
  le := Nat.le_refl _
  fresh h h' := absurd h h'

lemma trans (h : N.Grows count N' count') (h' : N'.Grows count' N'' count'') :
    N.Grows count N'' count'' where
  keeps id found hfound := h'.keeps id found (h.keeps id found hfound)
  le := Nat.le_trans h.le h'.le
  fresh := by
    intro id hnone hsome
    cases hmid : N' id with
    | none => exact Nat.lt_of_le_of_lt h.le (h'.fresh hmid hsome)
    | some found => exact h.fresh hnone (by simp [hmid])

end Naming.Grows

/-- A computation on a state that may fail; what it did to the state before stays done. -/
abbrev Fallible (σ α : Type) := ExceptT SelectorError (StateM σ) α

lemma Fallible.bind_apply {σ α β : Type} (action : Fallible σ α) (g : α → Fallible σ β) (s : σ) :
    (action >>= g) s =
      match action s with
      | (.ok a, s') => g a s'
      | (.error e, s') => (.error e, s') := by
  simp only [bind, ExceptT.bind, ExceptT.mk, StateT.bind]
  rcases action s with ⟨_ | _, s'⟩ <;> rfl

/-- What a state says about names: how many it has counted, and whether it is sound for what they
stand for. -/
structure Ledger (σ : Type) where
  count : σ → Nat
  Sound : Naming → σ → Prop

namespace Ledger

variable {σ α β γ δ : Type}

/-- Whether a computation takes no names back. -/
def Adds (L : Ledger σ) (action : Fallible σ α) : Prop :=
  ∀ s, L.count s ≤ L.count (action s).2

namespace Adds

variable {L : Ledger σ}

lemma pure (a : α) : L.Adds (Pure.pure a) := fun _ => Nat.le_refl _

lemma throw (e : SelectorError) : L.Adds (throw e : Fallible σ α) := fun _ => Nat.le_refl _

lemma modifyGet {f : σ → α × σ} (h : ∀ s, L.count s ≤ L.count (f s).2) :
    L.Adds (modifyGet f : Fallible σ α) := h

lemma modify {f : σ → σ} (h : ∀ s, L.count s ≤ L.count (f s)) :
    L.Adds (modify f : Fallible σ Unit) := h

lemma liftExcept (value : Except SelectorError α) : L.Adds (liftM value : Fallible σ α) := by
  cases value <;> exact fun _ => Nat.le_refl _

lemma bind {action : Fallible σ α} {g : α → Fallible σ β} (haction : L.Adds action)
    (hg : ∀ a, L.Adds (g a)) : L.Adds (action >>= g) := by
  intro s
  rw [Fallible.bind_apply]
  have hle := haction s
  split
  · rename_i a s' heq
    rw [heq] at hle
    exact Nat.le_trans hle (hg a s')
  · rename_i e s' heq
    rw [heq] at hle
    exact hle

lemma foldlM {f : β → α → Fallible σ β} (h : ∀ b a, L.Adds (f b a)) :
    ∀ (xs : List α) (b : β), L.Adds (xs.foldlM f b)
  | [], b => pure b
  | x :: xs, b => by
    rw [List.foldlM_cons]
    exact (h b x).bind fun b' => foldlM h xs b'

end Adds

/-- Whether two computations end in related values or in the same error. -/
def Agree (rel : α → β → Prop) : Except SelectorError α → Except SelectorError β → Prop
  | .ok a, .ok b => rel a b
  | .error e, .error e' => e = e'
  | _, _ => False

/-- Whether the outcome of a computation from a state is what a plain computation gives, and the
state that it leaves is sound, as long as no name is counted twice. -/
def Follows (L : Ledger σ) (N : Naming) (s : σ) (outcome : Except SelectorError α × σ)
    (plain : Except SelectorError β) (rel : Naming → α → β → Prop) : Prop :=
  L.count outcome.2 < UInt32.size → ∃ N', N.Grows (L.count s) N' (L.count outcome.2) ∧
    L.Sound N' outcome.2 ∧ Agree (rel N') outcome.1 plain

namespace Follows

variable {L : Ledger σ} {N : Naming} {s : σ}

/-- A step that gives no names and ends well. -/
theorem ok {s' : σ} {a : α} {b : β} {rel : Naming → α → β → Prop} (hs : L.Sound N s')
    (hcount : L.count s' = L.count s) (h : rel N a b) :
    L.Follows N s (.ok a, s') (.ok b) rel :=
  fun _ => ⟨N, hcount ▸ .refl N _, hs, h⟩

lemma pure {a : α} {b : β} {rel : Naming → α → β → Prop} (hs : L.Sound N s) (h : rel N a b) :
    L.Follows N s ((Pure.pure a : Fallible σ α) s) (.ok b) rel :=
  ok hs rfl h

lemma error {s' : σ} {e : SelectorError} {rel : Naming → α → β → Prop} (hs : L.Sound N s')
    (hcount : L.count s' = L.count s) : L.Follows N s (.error e, s') (.error e) rel :=
  fun _ => ⟨N, hcount ▸ .refl N _, hs, rfl⟩

lemma throw {e : SelectorError} {rel : Naming → α → β → Prop} (hs : L.Sound N s) :
    L.Follows N s ((throw e : Fallible σ α) s) (.error e) rel :=
  error hs rfl

lemma after {N' : Naming} {s' : σ} {outcome : Except SelectorError α × σ}
    {plain : Except SelectorError β} {rel : Naming → α → β → Prop}
    (hgrows : N.Grows (L.count s) N' (L.count s')) (h : L.Follows N' s' outcome plain rel) :
    L.Follows N s outcome plain rel := by
  intro hlt
  obtain ⟨N'', hgrows', hrest⟩ := h hlt
  exact ⟨N'', hgrows.trans hgrows', hrest⟩

/-- A computation goes on after another one; what was counted before both may be named after
both. -/
theorem bind_from {N₀ : Naming} {s₀ : σ} {action : Fallible σ α} {g : α → Fallible σ γ}
    {plain : Except SelectorError β} {h : β → Except SelectorError δ} {rel : Naming → α → β → Prop}
    {S : Naming → γ → δ → Prop} (hstart : N₀.Grows (L.count s₀) N (L.count s))
    (haction : L.Follows N s (action s) plain rel) (hadds : ∀ a, L.Adds (g a))
    (hg : ∀ {a b s' N'}, N.Grows (L.count s) N' (L.count s') → L.Sound N' s' → rel N' a b →
      L.count s' < UInt32.size → L.Follows N₀ s₀ (g a s') (h b) S) :
    L.Follows N₀ s₀ ((action >>= g) s) (plain >>= h) S := by
  intro hlt
  rw [Fallible.bind_apply] at hlt ⊢
  rcases hout : action s with ⟨_ | a, s'⟩
  · rw [hout] at hlt haction
    obtain ⟨N', hgrows, hsound, hagree⟩ := haction hlt
    cases plain with
    | error e' => exact ⟨N', hstart.trans hgrows, hsound, hagree⟩
    | ok b => exact hagree.elim
  · rw [hout] at hlt haction
    have hlt' := Nat.lt_of_le_of_lt (hadds a s') hlt
    obtain ⟨N', hgrows, hsound, hagree⟩ := haction hlt'
    cases plain with
    | error e' => exact hagree.elim
    | ok b => exact hg hgrows hsound hagree hlt' hlt

lemma bind {action : Fallible σ α} {g : α → Fallible σ γ} {plain : Except SelectorError β}
    {h : β → Except SelectorError δ} {rel : Naming → α → β → Prop} {S : Naming → γ → δ → Prop}
    (haction : L.Follows N s (action s) plain rel) (hadds : ∀ a, L.Adds (g a))
    (hg : ∀ {a b s' N'}, N.Grows (L.count s) N' (L.count s') → L.Sound N' s' → rel N' a b →
      L.Follows N' s' (g a s') (h b) S) :
    L.Follows N s ((action >>= g) s) (plain >>= h) S :=
  bind_from (.refl N _) haction hadds fun hgrows hs hab _ => after hgrows (hg hgrows hs hab)

lemma given {outcome : Except SelectorError α × σ} {plain : Except SelectorError β}
    {rel : Naming → α → β → Prop} (h : L.Follows N s outcome plain rel) :
    L.Follows N s outcome plain fun N' a b => rel N' a b ∧ plain = .ok b := by
  intro hlt
  obtain ⟨N', hgrows, hsound, hagree⟩ := h hlt
  refine ⟨N', hgrows, hsound, ?_⟩
  rcases outcome with ⟨_ | a, s'⟩ <;> cases plain
  · exact hagree
  · exact hagree
  · exact hagree
  · exact ⟨hagree, rfl⟩

lemma bind_ok {action : Fallible σ α} {g : α → Fallible σ γ} {b : β}
    {plain : Except SelectorError δ} {rel : Naming → α → β → Prop} {S : Naming → γ → δ → Prop}
    (haction : L.Follows N s (action s) (.ok b) rel) (hadds : ∀ a, L.Adds (g a))
    (hg : ∀ {a s' N'}, N.Grows (L.count s) N' (L.count s') → L.Sound N' s' → rel N' a b →
      L.Follows N' s' (g a s') plain S) :
    L.Follows N s ((action >>= g) s) plain S := by
  have hbind := (haction.given.bind (h := fun _ => plain) (S := S) hadds
    fun {a b' s' N'} hgrows hs hab => by
      obtain rfl := Except.ok.inj hab.2
      exact hg hgrows hs hab.1)
  exact hbind

lemma map {action : Fallible σ α} {plain : Except SelectorError β} {rel : Naming → α → β → Prop}
    {S : Naming → γ → δ → Prop} {g : α → γ} {h : β → δ}
    (haction : L.Follows N s (action s) plain rel)
    (hrel : ∀ {N' a b}, rel N' a b → S N' (g a) (h b)) :
    L.Follows N s ((do return g (← action) : Fallible σ γ) s) (plain.map h) S := by
  have hplain : plain.map h = plain >>= fun b => .ok (h b) := by cases plain <;> rfl
  rw [hplain]
  exact haction.bind (fun _ => .pure _) fun _ hs hab => .pure hs (hrel hab)

end Follows

end Ledger

end TreeQuery
