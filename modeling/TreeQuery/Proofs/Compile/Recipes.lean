import TreeQuery.Compile.Defaults
import TreeQuery.Proofs.Matching.Naming
import TreeQuery.Proofs.Matching.Unnamed

/-!
# What recipes ask for

The pseudo-classes that are always there have no selector compiled but their argument, do with a
compiled selector the same whatever names it bears, and make nothing of it that does not bear its
names.
-/

namespace TreeQuery

namespace Recipe

/-- Whether a recipe asks for texts shorter than a bound only. -/
def AsksWithin (bound : Nat) : Recipe → Prop
  | .ready _ => True
  | .reject _ => True
  | .compile text next => text.length < bound ∧ ∀ c, (next c).AsksWithin bound

/-- Whether a second recipe goes on like a first one when it gets the same selectors without their
names, and the first one leads to a matcher that bears its names. -/
def Tracks : Recipe → Recipe → Naming → Prop
  | .ready m, .ready m', N => m' = m.unnamed ∧ m.Fits N
  | .reject e, .reject e', _ => e' = e
  | .compile text next, .compile text' next', N =>
    text' = text ∧ ∀ N' c, N'.Extends N → c.Fits N' → (next c).Tracks (next' c.unnamed) N'
  | _, _, _ => False

/-- Whether a recipe asks for its argument at most, and does not depend on names. -/
structure Steady (argument : Option String) (r : Recipe) : Prop where
  tracks : ∀ N, r.Tracks r N
  asksWithin : ∀ bound, (∀ text, argument = some text → text.length < bound) → r.AsksWithin bound

lemma steady_check (argument : Option String) (accepts : Scope → NodeId → Bool) :
    (Recipe.ready (.test (.check accepts))).Steady argument :=
  ⟨fun _ => ⟨rfl, trivial⟩, fun _ _ => trivial⟩

lemma steady_reject (argument : Option String) (e : SelectorError) :
    (Recipe.reject e).Steady argument :=
  ⟨fun _ => rfl, fun _ _ => trivial⟩

lemma steady_choice (argument : Option String) {choose : List NodeId → List NodeId}
    (h : ∀ seed, choose seed ⊆ seed) : (choice choose).Steady argument :=
  ⟨fun _ => ⟨rfl, h⟩, fun _ _ => trivial⟩

/-- A recipe that compiles its argument into one matcher. -/
theorem steady_compile (text : String) {make : Compiled → Matcher}
    (hunnamed : ∀ c, make c.unnamed = (make c).unnamed)
    (hfits : ∀ N c, c.Fits N → (make c).Fits N) :
    (Recipe.compile text fun c => .ready (make c)).Steady (some text) :=
  ⟨fun _ => ⟨rfl, fun N' c _ hc => ⟨hunnamed c, hfits N' c hc⟩⟩,
    fun _ h => ⟨h text rfl, fun _ => trivial⟩⟩

lemma steady_withArgument {name : String} {next : String → Recipe}
    (h : ∀ text, (next text).Steady (some text)) (argument : Option String) :
    (withArgument name next argument).Steady argument := by
  cases argument with
  | none => exact steady_reject none _
  | some text => exact h text

end Recipe

lemma Compiled.elementTest_fits {N : Naming} {c : Compiled} {t : Test} (hc : c.Fits N)
    (h : c.elementTest = some t) : t.Fits N none := by
  cases c with
  | mk list test plans =>
    cases plans with
    | nil =>
      rw [Compiled.elementTest] at h
      subst h
      exact hc.1
    | cons plan rest => simp [Compiled.elementTest] at h

lemma negationRecipe_steady (argument : Option String) :
    (negationRecipe argument).Steady argument := by
  refine Recipe.steady_withArgument (fun text => Recipe.steady_compile text (fun c => ?_)
    fun N c hc => ?_) argument
  · rw [Compiled.elementTest_unnamed]
    cases c.elementTest <;> rfl
  · cases h : c.elementTest with
    | none => exact hc
    | some t =>
      have ht : t.Fits N none := Compiled.elementTest_fits hc h
      exact ht

lemma membershipRecipe_steady (argument : Option String) :
    (membershipRecipe argument).Steady argument := by
  refine Recipe.steady_withArgument (fun text => Recipe.steady_compile text (fun c => ?_)
    fun N c hc => ?_) argument
  · rw [Compiled.elementTest_unnamed]
    cases c.elementTest <;> rfl
  · cases h : c.elementTest with
    | none => exact hc
    | some t => exact Compiled.elementTest_fits hc h

lemma hasRecipe_steady (argument : Option String) : (hasRecipe argument).Steady argument := by
  refine Recipe.steady_withArgument (fun text => ?_) argument
  have hfits : ∀ (N : Naming) (c : Compiled), c.Fits N → (Matcher.test (.has c)).Fits N :=
    fun _ _ hc => hc
  exact Recipe.steady_compile text (fun _ => rfl) hfits

lemma containsRecipe_steady (argument : Option String) :
    (containsRecipe argument).Steady argument :=
  Recipe.steady_withArgument (fun _ => Recipe.steady_check _ _) argument

lemma langRecipe_steady (argument : Option String) : (langRecipe argument).Steady argument := by
  unfold langRecipe
  dsimp only
  split
  · exact Recipe.steady_check _ _
  · exact Recipe.steady_reject _ _

lemma evenPlaces_sublist (seed : List NodeId) : (evenPlaces seed).Sublist seed := by
  fun_induction evenPlaces seed with
  | case1 => exact .slnil
  | case2 a => exact .refl [a]
  | case3 a b rest ih => exact (ih.cons b).cons_cons a

lemma memberAt_sublist (n : Int) (seed : List NodeId) : (memberAt n seed).Sublist seed := by
  unfold memberAt
  dsimp only
  split
  · exact List.nil_sublist seed
  · cases hfound : seed[(placeOf n seed.length).toNat]? with
    | none => exact List.nil_sublist seed
    | some x => exact List.singleton_sublist.mpr (List.mem_of_getElem? hfound)

lemma indexed_steady (name : String) {choose : Int → List NodeId → List NodeId}
    (h : ∀ n seed, choose n seed ⊆ seed) (argument : Option String) :
    (indexed name choose argument).Steady argument := by
  refine Recipe.steady_withArgument (fun text => ?_) argument
  cases signed? (trimSpacing text.toList) with
  | none => exact Recipe.steady_reject _ _
  | some n => exact Recipe.steady_choice _ (h n)

/-- What holds of each recipe, and of whatever chooses some elements by their places, holds of all
pseudo-classes that are always there. -/
theorem forall_mem_factories {P : String × (Option String → Recipe) → Prop}
    (hnegation : P ("not", negationRecipe))
    (hmembership : ∀ name ∈ ["is", "matches"], P (name, membershipRecipe))
    (hhas : P ("has", hasRecipe)) (hcontains : P ("contains", containsRecipe))
    (hlang : P ("lang", langRecipe))
    (hchoice : ∀ name choose, (∀ seed, (choose seed).Sublist seed) →
      P (name, fun _ => choice choose))
    (hindexed : ∀ name choose, (∀ n seed, (choose n seed).Sublist seed) →
      P (name, indexed name choose)) :
    ∀ entry ∈ factories, P entry := by
  intro entry hentry
  simp only [factories, List.mem_cons, List.not_mem_nil, or_false] at hentry
  obtain rfl | rfl | rfl | rfl | rfl | rfl | rfl | rfl | rfl | rfl | rfl | rfl | rfl | rfl := hentry
  · exact hnegation
  · exact hmembership "is" (by decide)
  · exact hmembership "matches" (by decide)
  · exact hhas
  · exact hcontains
  · exact hlang
  · exact hchoice "first" _ fun seed => List.take_sublist 1 seed
  · exact hchoice "last" _ fun seed => List.drop_sublist _ seed
  · exact hchoice "even" _ evenPlaces_sublist
  · exact hchoice "odd" _ fun seed => (evenPlaces_sublist _).trans (List.drop_sublist 1 seed)
  · exact hindexed "eq" memberAt memberAt_sublist
  · exact hindexed "nth" memberAt memberAt_sublist
  · exact hindexed "lt" takeBefore fun _ seed => List.take_sublist _ seed
  · exact hindexed "gt" dropThrough fun _ seed => List.drop_sublist _ seed

lemma factories_steady : ∀ entry ∈ factories, ∀ argument, (entry.2 argument).Steady argument :=
  forall_mem_factories negationRecipe_steady (fun _ _ => membershipRecipe_steady) hasRecipe_steady
    containsRecipe_steady langRecipe_steady
    (fun _ _ h argument => Recipe.steady_choice argument fun seed => (h seed).subset)
    fun name _ h => indexed_steady name fun n seed => (h n seed).subset

namespace Registry

/-- Whether all pseudo-classes with an argument are steady. -/
def Steady (r : Registry) : Prop :=
  ∀ name build, r.get? name = some (.factory build) → ∀ argument, (build argument).Steady argument

lemma get?_register {r : Registry} {name name' : String} {pseudo found : Pseudo}
    (h : (r.register name pseudo).get? name' = some found) :
    found = pseudo ∧ name' = name.toLower ∨ r.get? name' = some found := by
  simp only [get?, register, List.find?_cons, Option.map_eq_some_iff] at h ⊢
  obtain ⟨entry, hentry, rfl⟩ := h
  split at hentry
  · rename_i hsame
    exact .inl ⟨by rw [← Option.some.inj hentry], (beq_iff_eq.mp hsame).symm⟩
  · rename_i hne
    have hsame : (fun entry : String × Pseudo => decide ((entry.1 != name.toLower) = true ∧
        (entry.1 == name') = true)) = fun entry => entry.1 == name' := by
      funext entry
      by_cases heq : entry.1 = name'
      · have hother : name' ≠ name.toLower := fun h => by simp [h] at hne
        simp [heq, hother]
      · simp [heq]
    rw [List.find?_filter, hsame] at hentry
    exact .inr ⟨entry, hentry, rfl⟩

lemma get?_foldl_register {α : Type} (name : α → String) (pseudo : α → Pseudo) :
    ∀ (entries : List α) {r : Registry} {wanted : String} {found : Pseudo},
      (entries.foldl (fun r entry => r.register (name entry) (pseudo entry)) r).get? wanted =
        some found →
      (∃ entry ∈ entries, pseudo entry = found ∧ (name entry).toLower = wanted) ∨
        r.get? wanted = some found
  | [], _, _, _, h => .inr h
  | entry :: rest, r, wanted, found, h => by
    obtain ⟨other, hother, heq⟩ | h := get?_foldl_register name pseudo rest h
    · exact .inl ⟨other, List.mem_cons_of_mem _ hother, heq⟩
    · exact (get?_register h).imp_left fun ⟨hfound, hwanted⟩ =>
        ⟨entry, List.mem_cons_self, hfound.symm, hwanted.symm⟩

/-- The standard registry has no rules but the factories, under their names. -/
theorem pair_mem_factories {name : String} {build : Option String → Recipe}
    (h : standard.get? name = some (.factory build)) : (name, build) ∈ factories := by
  have hlower : ∀ name ∈ factories.map (·.1), name.toLower = name := by decide +kernel
  unfold standard at h
  obtain ⟨entry, hentry, heq, rfl⟩ | h :=
    get?_foldl_register (·.1) (fun entry => .factory entry.2) factories h
  · rw [hlower entry.1 (List.mem_map_of_mem hentry), ← Pseudo.factory.inj heq]
    exact hentry
  · obtain ⟨_, -, heq, -⟩ | h :=
      get?_foldl_register (·.1) (fun entry => .predicate fun s n => entry.2 s.document n)
        predicates h
    · exact nomatch heq
    · simp [get?, empty] at h

lemma mem_factories_of_get? {name : String} {build : Option String → Recipe}
    (h : standard.get? name = some (.factory build)) : ∃ entry ∈ factories, entry.2 = build :=
  ⟨(name, build), pair_mem_factories h, rfl⟩

lemma standard_steady : standard.Steady := by
  intro name build h argument
  obtain ⟨entry, hentry, rfl⟩ := mem_factories_of_get? h
  exact factories_steady entry hentry argument

end Registry

end TreeQuery
