import TreeQuery.Proofs.Compile.Plain
import TreeQuery.Proofs.Compile.Recipes
import TreeQuery.Proofs.Selector.Arguments

/-!
# The depth of selectors within selectors

A selector within another is shorter than the other, so that a text compiles to the same whatever
depth beyond its length is allowed.
-/

namespace TreeQuery

namespace Plain

variable {registry : Registry} {bound : Nat}
  {nested nested' : String → Except SelectorError Compiled}

lemma follow_congr (h : ∀ text : String, text.length < bound → nested text = nested' text) :
    ∀ {r : Recipe}, r.AsksWithin bound → follow nested r = follow nested' r
  | .ready _, _ => rfl
  | .reject _, _ => rfl
  | .compile text next, ⟨hlt, hnext⟩ => by
    rw [follow, follow, h text hlt]
    cases nested' text with
    | error e => rfl
    | ok c => exact follow_congr h (hnext c)

variable [PatternLibrary]

lemma simple_congr (hregistry : registry.Steady)
    (h : ∀ text : String, text.length < bound → nested text = nested' text) {t : Token}
    (ht : t.Within bound) : simple registry nested t.value = simple registry nested' t.value := by
  unfold simple
  split <;> try rfl
  rename_i call hcall
  split <;> try rfl
  rename_i build hget
  exact follow_congr h ((hregistry _ _ hget call.argument).asksWithin bound (ht call hcall))

lemma addToken_congr (hregistry : registry.Steady)
    (h : ∀ text : String, text.length < bound → nested text = nested' text)
    (draft : Compile.Draft) {t : Token} (ht : t.Within bound) :
    addToken registry nested draft t = addToken registry nested' draft t := by
  unfold addToken
  split
  · rfl
  · rw [simple_congr hregistry h ht]

lemma clause_congr (hregistry : registry.Steady)
    (h : ∀ text : String, text.length < bound → nested text = nested' text) {c : Clause}
    (hc : ∀ t ∈ c, t.Within bound) : clause registry nested c = clause registry nested' c := by
  have hfold : ∀ (ts : List Token) (draft : Compile.Draft), (∀ t ∈ ts, t.Within bound) →
      ts.foldlM (addToken registry nested) draft = ts.foldlM (addToken registry nested') draft := by
    intro ts
    induction ts with
    | nil => exact fun _ _ => rfl
    | cons t rest ih =>
      intro draft hts
      rw [List.foldlM_cons, List.foldlM_cons, addToken_congr hregistry h draft (hts t (by simp))]
      congr 1
      exact funext fun d => ih d fun u hu => hts u (by simp [hu])
  rw [clause, clause, hfold c _ hc]

lemma clauses_congr (hregistry : registry.Steady)
    (h : ∀ text : String, text.length < bound → nested text = nested' text) :
    ∀ {cs : List Clause}, (∀ c ∈ cs, ∀ t ∈ c, t.Within bound) →
      clauses registry nested cs = clauses registry nested' cs
  | [], _ => rfl
  | c :: rest, hcs => by
    rw [clauses, clauses, clause_congr hregistry h (hcs c (by simp)),
      clauses_congr hregistry h fun d hd => hcs d (by simp [hd])]

/-- A depth beyond the length of a text is enough, and then it does not matter. -/
theorem within_eq (hregistry : registry.Steady) : ∀ {depth depth' : Nat} {text : String},
    text.length < depth → text.length < depth' →
      within registry depth text = within registry depth' text := by
  intro depth
  induction depth with
  | zero => exact fun h => absurd h (Nat.not_lt_zero _)
  | succ depth ih =>
    intro depth' text h h'
    obtain ⟨depth', rfl⟩ : ∃ d, depth' = d + 1 := ⟨depth' - 1, by omega⟩
    rw [within, within]
    cases hparse : SelectorList.parse text with
    | error e => rfl
    | ok list =>
      have hnested : ∀ inner : String, inner.length < text.length →
          within registry depth inner = within registry depth' inner :=
        fun inner hinner => ih (by omega) (by omega)
      simp only [bind, Except.bind, selectorList]
      rw [clauses_congr hregistry hnested (SelectorList.parse_within hparse)]

/-- A text compiles to what its clauses compile to. -/
theorem plain_eq (hregistry : registry.Steady) (text : String) :
    registry.plain text = (do selectorList registry registry.plain (← SelectorList.parse text)) := by
  rw [Registry.plain, within]
  cases hparse : SelectorList.parse text with
  | error e => rfl
  | ok list =>
    have hnested : ∀ inner : String, inner.length < text.length →
        within registry text.length inner = registry.plain inner :=
      fun inner hinner => within_eq hregistry hinner (Nat.lt_succ_self _)
    simp only [bind, Except.bind, selectorList]
    rw [clauses_congr hregistry hnested (SelectorList.parse_within hparse)]

end Plain

end TreeQuery
