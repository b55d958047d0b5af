import TreeQuery.Proofs.Compile.Ledger

/-!
# Invariants of computations

A computation on a state that may fail keeps an invariant of the state when it holds afterwards,
whether the computation fails or not. What it gives when it does not fail may be known too.
-/

namespace TreeQuery

namespace Fallible

variable {σ α β : Type}

lemma eq_ok_of_toOption {x : Except SelectorError α} {a : α} (h : x.toOption = some a) :
    x = .ok a := by
  cases x with
  | error e => exact nomatch h
  | ok b => exact congrArg Except.ok (Option.some.inj h)

/-- Whether a computation keeps an invariant of its state, and all that it gives has a property. -/
def Keeps (I : σ → Prop) (action : Fallible σ α) (P : α → Prop) : Prop :=
  ∀ s, I s → I (action s).2 ∧ ∀ a, (action s).1 = .ok a → P a

namespace Keeps

variable {I : σ → Prop} {P Q : α → Prop}

lemma pure {a : α} (h : P a) : Keeps I (Pure.pure a) P :=
  fun _ hs => ⟨hs, fun _ ha => Except.ok.inj ha ▸ h⟩

lemma throw (e : SelectorError) : Keeps I (throw e : Fallible σ α) P :=
  fun _ hs => ⟨hs, fun _ ha => nomatch ha⟩

lemma modify {f : σ → σ} (h : ∀ s, I s → I (f s)) :
    Keeps I (modify f : Fallible σ Unit) fun _ => True :=
  fun s hs => ⟨h s hs, fun _ _ => trivial⟩

lemma modifyGet {f : σ → α × σ} (h : ∀ s, I s → I (f s).2 ∧ P (f s).1) :
    Keeps I (modifyGet f : Fallible σ α) P :=
  fun s hs => ⟨(h s hs).1, fun _ ha => Except.ok.inj ha ▸ (h s hs).2⟩

lemma get : Keeps I (get : Fallible σ σ) I :=
  fun _ hs => ⟨hs, fun _ ha => Except.ok.inj ha ▸ hs⟩

lemma liftExcept {value : Except SelectorError α} (h : ∀ a, value = .ok a → P a) :
    Keeps I (liftM value : Fallible σ α) P := by
  cases value with
  | ok a => exact pure (h a rfl)
  | error e => exact throw e

lemma bind {R : β → Prop} {action : Fallible σ α} {g : α → Fallible σ β}
    (haction : Keeps I action P) (hg : ∀ a, P a → Keeps I (g a) R) :
    Keeps I (action >>= g) R := by
  intro s hs
  obtain ⟨hs', hP⟩ := haction s hs
  rw [Fallible.bind_apply]
  rcases hout : action s with ⟨_ | a, s'⟩
  · rw [hout] at hs'
    exact ⟨hs', fun _ ha => nomatch ha⟩
  · rw [hout] at hs' hP
    exact hg a (hP a rfl) s' hs'

lemma mono {action : Fallible σ α} (h : Keeps I action P) (hPQ : ∀ a, P a → Q a) :
    Keeps I action Q :=
  fun s hs => ⟨(h s hs).1, fun a ha => hPQ a ((h s hs).2 a ha)⟩

lemma foldlM {R : β → Prop} {f : β → α → Fallible σ β}
    (h : ∀ b a, R b → Keeps I (f b a) R) :
    ∀ (xs : List α) {b : β}, R b → Keeps I (xs.foldlM f b) R
  | [], _, hb => pure hb
  | x :: xs, b, hb => by
    rw [List.foldlM_cons]
    exact (h b x hb).bind fun _ hb' => foldlM h xs hb'

end Keeps

end Fallible

end TreeQuery
