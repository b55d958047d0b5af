import Mathlib.Tactic.Lemma
import TreeQuery.Engine.Seed

/-!
# What seed plans leave

A seed plan takes one token out of the last compound of a clause. Its text is the text of the tokens
that are left, but nothing in the plan says that the text is read as these tokens again.
-/

namespace TreeQuery

/-- Whether a seed can be looked up: a class with a blank is no word of any attribute. -/
def Seed.IsWord : Seed → Prop
  | .className word => ∀ c ∈ word.toList, isBlank c = false
  | _ => True

/-- Whether an engine may look a seed up: an index is advertised for it, and it is not `*`. -/
structure Seed.IsAsked (features : Features) (seed : Seed) : Prop where
  indexed : seed.isIndexed features = true
  ne_star : seed ≠ .tag "*"

/-- A clause that leaves no token behind in its last compound has `*` there. -/
def Token.universal : Token := ⟨"*", .tag "*"⟩

namespace SelectorList

/-- The tokens that are left when an index looks one up. -/
def leftover (list : SelectorList) (features : Features) : Option Clause :=
  match list.clauses with
  | [clause] =>
    if clause.head?.any Token.isCombinator then none
    else
      let (earlier, compound) := SeedPlan.splitLastCompound clause
      (SeedPlan.splitSeed features compound).map fun (before, _, after) =>
        earlier ++ if compound.length = 1 then [.universal] else before ++ after
  | _ => none

/-- Whether the text of what is left is read as what is left. -/
def Rereads (list : SelectorList) (features : Features) : Prop :=
  ∀ left, list.leftover features = some left →
    ∃ again, SelectorList.parse left.text = .ok again ∧
      again.clauses.map (·.map Token.value) = [left.map Token.value]

/-- Whether a list may be answered from the seeds that an index finds. -/
def Narrows (list : SelectorList) (features : Features) : Prop :=
  ∀ plan, list.seedPlan features = some plan → plan.seed.IsWord ∧ list.Rereads features

end SelectorList

namespace SeedPlan

lemma splitLastCompound_eq (clause : Clause) :
    ∃ earlier compound, splitLastCompound clause = (earlier, compound) ∧
      clause = earlier ++ compound ∧ (∀ t ∈ compound, t.isCombinator = false) ∧
        ∀ t ∈ earlier.getLast?, t.isCombinator = true := by
  let simple (t : Token) : Bool := !t.isCombinator
  have hclause : clause =
      (clause.reverse.dropWhile simple).reverse ++ (clause.reverse.takeWhile simple).reverse := by
    rw [← List.reverse_append, List.takeWhile_append_dropWhile, List.reverse_reverse]
  refine ⟨(clause.reverse.dropWhile simple).reverse, (clause.reverse.takeWhile simple).reverse,
    ?_, hclause, fun t ht => ?_, fun t ht => ?_⟩
  · have hlength := congrArg List.length hclause
    rw [List.length_append] at hlength
    refine Prod.ext ?_ rfl
    have htake : clause.take (clause.reverse.dropWhile simple).reverse.length =
        (clause.reverse.dropWhile simple).reverse := by
      calc clause.take (clause.reverse.dropWhile simple).reverse.length
          = ((clause.reverse.dropWhile simple).reverse ++
              (clause.reverse.takeWhile simple).reverse).take
                (clause.reverse.dropWhile simple).reverse.length := by rw [← hclause]
        _ = (clause.reverse.dropWhile simple).reverse := List.take_left
    have hearlier : clause.length - (clause.reverse.takeWhile simple).reverse.length =
        (clause.reverse.dropWhile simple).reverse.length := by omega
    rw [← hearlier] at htake
    exact htake
  · have hall := List.all_eq_true.mp (List.all_takeWhile (l := clause.reverse) (p := simple))
    have hsimple := hall t (List.mem_reverse.mp ht)
    simpa [simple] using hsimple
  · have hstop := List.head?_dropWhile_not simple clause.reverse
    rw [List.getLast?_reverse] at ht
    rw [show (clause.reverse.dropWhile simple).head? = some t from ht] at hstop
    simpa [simple] using hstop

lemma splitSeed_eq_none {features : Features} {compound : List Token}
    (h : splitSeed features compound = none) :
    ∀ t ∈ compound, ∀ seed, Seed.ofToken t = some seed → seed.isIndexed features = false := by
  induction compound with
  | nil => exact nofun
  | cons t rest ih =>
    simp only [splitSeed] at h
    split at h
    · exact nomatch h
    · rename_i hrest
      rw [Option.map_eq_none_iff, Option.filter_eq_none_iff] at h
      refine List.forall_mem_cons.mpr ⟨fun seed hseed => ?_, ih hrest⟩
      exact Bool.eq_false_iff.mpr (h seed hseed)

lemma splitSeed_eq {features : Features} {compound before after : List Token} {seed : Seed}
    (h : splitSeed features compound = some (before, seed, after)) :
    ∃ t, compound = before ++ t :: after ∧ Seed.ofToken t = some seed ∧
      seed.isIndexed features = true ∧
        ∀ u ∈ after, ∀ other, Seed.ofToken u = some other → other.isIndexed features = false := by
  induction compound generalizing before with
  | nil => simp [splitSeed] at h
  | cons t rest ih =>
    simp only [splitSeed] at h
    split at h
    · rename_i before' seed' after' hrest
      obtain ⟨rfl, rfl, rfl⟩ : t :: before' = before ∧ seed' = seed ∧ after' = after := by
        simpa using h
      obtain ⟨u, rfl, hu, hindexed, hlast⟩ := ih hrest
      exact ⟨u, rfl, hu, hindexed, hlast⟩
    · rename_i hnone
      obtain ⟨found, hfound, heq⟩ := Option.map_eq_some_iff.mp h
      obtain ⟨hofToken, hindexed⟩ := Option.filter_eq_some_iff.mp hfound
      obtain ⟨rfl, rfl, rfl⟩ : [] = before ∧ found = seed ∧ rest = after := by simpa using heq
      exact ⟨t, rfl, hofToken, hindexed, splitSeed_eq_none hnone⟩

end SeedPlan

lemma Clause.text_append (as bs : Clause) : Clause.text (as ++ bs) = as.text ++ bs.text := by
  induction as with
  | nil => simp [Clause.text]
  | cons t rest ih =>
    simp only [Clause.text, List.cons_append, List.foldr_cons] at ih ⊢
    rw [ih, String.append_assoc]

namespace SelectorList

variable {list : SelectorList} {features : Features} {plan : SeedPlan}

/-- A seed plan takes one token out of the last compound of the only clause. -/
theorem seedPlan_split (h : list.seedPlan features = some plan) :
    ∃ earlier before t after, list.clauses = [earlier ++ (before ++ t :: after)] ∧
      (∀ u ∈ before ++ t :: after, u.isCombinator = false) ∧
      (earlier ++ (before ++ t :: after)).head?.any Token.isCombinator = false ∧
      Seed.ofToken t = some plan.seed ∧ plan.seed.isIndexed features = true ∧
      (∀ u ∈ earlier.getLast?, u.isCombinator = true) ∧
      (∀ u ∈ after, ∀ seed, Seed.ofToken u = some seed → seed.isIndexed features = false) ∧
      ∃ left, list.leftover features = some left ∧ plan.reduced = left.text ∧
        left = earlier ++ if before ++ after = [] then [.universal] else before ++ after := by
  unfold seedPlan at h
  split at h
  · rename_i clause hclauses
    split at h
    · simp at h
    · rename_i hhead
      obtain ⟨earlier, compound, hpair, rfl, hsimple, hearlier⟩ :=
        SeedPlan.splitLastCompound_eq clause
      rw [hpair] at h
      obtain ⟨⟨before, seed, after⟩, hsplit, rfl⟩ := Option.map_eq_some_iff.mp h
      obtain ⟨t, rfl, ht, hindexed, hafter⟩ := SeedPlan.splitSeed_eq hsplit
      have halone : (before ++ t :: after).length = 1 ↔ before ++ after = [] := by
        simp only [List.length_append, List.length_cons, ← List.length_eq_zero_iff]
        omega
      have hleft : list.leftover features =
          some (earlier ++ if before ++ after = [] then [.universal] else before ++ after) := by
        rw [leftover, hclauses]
        simp only [hhead, hpair, hsplit, halone, Option.map_some, Bool.false_eq_true, if_false]
      refine ⟨earlier, before, t, after, hclauses, hsimple, by simpa using hhead, ht, hindexed,
        hearlier, hafter, _, hleft, ?_, rfl⟩
      simp only [Clause.text_append earlier, halone]
      split <;> rfl
  · simp at h

lemma isAsked_of_seedPlan (h : list.seedPlan features = some plan) :
    plan.seed.IsAsked features := by
  obtain ⟨_, _, t, _, -, -, -, ht, hindexed, -, -, -⟩ := seedPlan_split h
  refine ⟨hindexed, fun hstar => ?_⟩
  rw [hstar, Seed.ofToken] at ht
  split at ht
  · simp at ht
  · simp at ht
  · split at ht
    · simp at ht
    · rename_i name _ hne
      obtain rfl := Seed.tag.inj (Option.some.inj ht)
      exact hne rfl
  · simp at ht

end SelectorList

end TreeQuery
