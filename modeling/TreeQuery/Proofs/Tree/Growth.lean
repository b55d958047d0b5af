import Mathlib.Data.List.Pairwise
import TreeQuery.Proofs.Tree.Groves
import TreeQuery.Proofs.Tree.Rows

/-!
# Growing a forest

A document whose nodes are never appended below themselves is a forest, and every walk over a forest
ends within its arena. One append of a node below itself is enough to lose both: the way up from that
node leads back to it.
-/

namespace TreeQuery

section Redirect

variable {step step' : NodeId → Option NodeId} {p c : NodeId}

/-- A chain that comes back to its start does not end. -/
theorem not_ends_of_cycle {n : NodeId} (h : Relation.TransGen (Linked step) n n) (bound : Nat) :
    ¬ Ends step bound (some n) := by
  induction bound generalizing n with
  | zero => exact id
  | succ bound ih =>
    intro hends
    obtain ⟨m, hm, hback⟩ := Relation.TransGen.head'_iff.mp h
    have hnext : Ends step bound (step n) := hends
    rw [show step n = some m from hm] at hnext
    exact ih (.tail' hback hm) hnext

/-- Links that differ at `c` only lead to `c` from the same nodes: the first way there does not use
the link at `c`. -/
theorem reaches_of_agree (hagree : ∀ m, m ≠ c → step' m = step m) {a : NodeId}
    (h : Relation.ReflTransGen (Linked step) a c) : Relation.ReflTransGen (Linked step') a c := by
  induction h using Relation.ReflTransGen.head_induction_on with
  | refl => exact .refl
  | @head a b hab _ ih =>
    by_cases ha : a = c
    · exact ha ▸ .refl
    · exact .head ((hagree a ha).trans hab) ih

/-- A way along links that were redirected at `c` is an old one or goes through `c`. -/
theorem transGen_redirect (hagree : ∀ m, m ≠ c → step' m = step m) (hc : step' c = some p)
    {a b : NodeId} (h : Relation.TransGen (Linked step') a b) :
    Relation.TransGen (Linked step) a b ∨
      (Relation.ReflTransGen (Linked step') a c ∧ Relation.ReflTransGen (Linked step') p b) := by
  induction h with
  | @single b hab =>
    by_cases ha : a = c
    · subst ha
      obtain rfl := Option.some.inj (hc.symm.trans hab)
      exact .inr ⟨.refl, .refl⟩
    · exact .inl (.single ((hagree a ha).symm.trans hab))
  | @tail b b' hab hb ih =>
    by_cases hbc : b = c
    · subst hbc
      obtain rfl := Option.some.inj (hc.symm.trans hb)
      exact .inr ⟨hab.to_reflTransGen, .refl⟩
    · obtain hold | ⟨hac, hpb⟩ := ih
      · exact .inl (.tail hold ((hagree b hbc).symm.trans hb))
      · exact .inr ⟨hac, .tail hpb hb⟩

/-- Redirecting a link makes a cycle exactly if the old links lead back from its new end. -/
theorem acyclic_redirect_iff (hagree : ∀ m, m ≠ c → step' m = step m) (hc : step' c = some p)
    (hacyclic : ∀ n, ¬ Relation.TransGen (Linked step) n n) :
    (∀ n, ¬ Relation.TransGen (Linked step') n n) ↔ ¬ Relation.ReflTransGen (Linked step) p c := by
  constructor
  · exact fun hnew hback => hnew c (.head' hc (reaches_of_agree hagree hback))
  · intro hnot n hn
    obtain hold | ⟨hnc, hpn⟩ := transGen_redirect hagree hc hn
    · exact hacyclic n hold
    · exact hnot (reaches_of_agree (fun m hm => (hagree m hm).symm) (hpn.trans hnc))

end Redirect

namespace Document

variable {d : Document}

lemma acyclic_detach (h : ∀ n, ¬ Relation.TransGen (Linked d.parent) n n) (c n : NodeId) :
    ¬ Relation.TransGen (Linked (d.detach c).parent) n n := by
  have hold : ∀ a b, Linked (d.detach c).parent a b → Linked d.parent a b := by
    intro a b hab
    rw [Linked, parent_detach] at hab
    split at hab
    · cases hab
    · exact hab
  exact fun hn => h n (Relation.TransGen.mono hold _ _ hn)

/-- A node can be appended to any node that it is not above. -/
theorem acyclic_appendChild_iff {p c : NodeId} (hne : p ≠ c) (hp : p < d.size) (hc : c < d.size)
    (h : ∀ n, ¬ Relation.TransGen (Linked d.parent) n n) :
    (∀ n, ¬ Relation.TransGen (Linked (d.appendChild p c).parent) n n) ↔
      ¬ Relation.TransGen (Linked d.parent) p c := by
  have hagree : ∀ m, m ≠ c → (d.appendChild p c).parent m = d.parent m := fun m hm => by
    rw [parent_appendChild hne hp hc, if_neg hm]
  have hnew : (d.appendChild p c).parent c = some p := by
    rw [parent_appendChild hne hp hc, if_pos rfl]
  rw [acyclic_redirect_iff hagree hnew h, Relation.reflTransGen_iff_eq_or_transGen,
    or_iff_right hne.symm]

/-- Whether a document was made from an empty one without appending any node below itself. -/
inductive Planted : Document → Prop where
  | empty (xml : Bool) : Planted (.empty xml)
  | createElement {d : Document} : d.Planted → ∀ name, Planted (d.createElement name).1
  | createText {d : Document} : d.Planted → ∀ content, Planted (d.createText content).1
  | createComment {d : Document} : d.Planted → ∀ content, Planted (d.createComment content).1
  | appendChild {d : Document} : d.Planted → ∀ {parent child},
      ¬ Relation.TransGen (Linked d.parent) parent child → Planted (d.appendChild parent child)
  | detach {d : Document} : d.Planted → ∀ n, Planted (d.detach n)
  | setAttribute {d : Document} : d.Planted → ∀ n name value, Planted (d.setAttribute n name value)
  | removeAttribute {d : Document} : d.Planted → ∀ n name, Planted (d.removeAttribute n name)

namespace Planted

lemma reached (h : d.Planted) : d.Reached := by
  induction h with
  | empty xml => exact .empty xml
  | createElement _ name ih => exact ih.createElement name
  | createText _ content ih => exact ih.createText content
  | createComment _ content ih => exact ih.createComment content
  | appendChild _ _ ih => exact ih.appendChild _ _
  | detach _ n ih => exact ih.detach n
  | setAttribute _ n name value ih => exact ih.setAttribute n name value
  | removeAttribute _ n name ih => exact ih.removeAttribute n name

lemma acyclic (h : d.Planted) : ∀ n, ¬ Relation.TransGen (Linked d.parent) n n := by
  have hsame : ∀ {d d' : Document}, SameLinks d d' →
      (∀ n, ¬ Relation.TransGen (Linked d.parent) n n) →
      ∀ n, ¬ Relation.TransGen (Linked d'.parent) n n := fun hsame h => hsame.parent ▸ h
  induction h with
  | empty xml => exact (isForest_empty xml).acyclic
  | createElement _ name ih => exact hsame (sameLinks_create _ _) ih
  | createText _ content ih => exact hsame (sameLinks_create _ _) ih
  | createComment _ content ih => exact hsame (sameLinks_create _ _) ih
  | appendChild _ habove ih =>
    exact appendChild_cases (P := fun d => ∀ n, ¬ Relation.TransGen (Linked d.parent) n n) ih
      fun hne hp hc => (acyclic_appendChild_iff hne hp hc ih).mpr habove
  | detach _ n ih => exact acyclic_detach ih n
  | setAttribute _ n name value ih => exact hsame (sameLinks_modifyElement _ _ _) ih
  | removeAttribute _ n name ih => exact hsame (sameLinks_modifyElement _ _ _) ih

lemma isForest (h : d.Planted) : d.IsForest :=
  isForest_iff.mpr ⟨h.reached.rows, h.acyclic⟩

lemma setAttributes (h : d.Planted) (n : NodeId) (attributes : List (String × String)) :
    (attributes.foldl (fun d entry => d.setAttribute n entry.1 entry.2) d).Planted := by
  induction attributes generalizing d with
  | nil => exact h
  | cons entry rest ih => exact ih (h.setAttribute n entry.1 entry.2)

/-- No node is below a new one. -/
theorem appendChild_new {d' : Document} (hd : d.Planted) (h : d'.Planted) (hsame : SameLinks d d')
    (parent : NodeId) : (d'.appendChild parent d.size).Planted := by
  refine h.appendChild fun habove => ?_
  obtain ⟨m, -, hm⟩ := Relation.TransGen.tail'_iff.mp habove
  rw [Linked, hsame.parent] at hm
  exact Nat.lt_irrefl _ (hd.isForest.parent_lt_size hm)

lemma appendElement (h : d.Planted) (parent : NodeId) (name : String)
    (attributes : List (String × String)) : (d.appendElement parent name attributes).1.Planted :=
  h.appendChild_new ((h.createElement name).setAttributes _ attributes)
    ((sameLinks_create d _).trans (sameLinks_setAttributes _ _ attributes)) parent

lemma appendText (h : d.Planted) (parent : NodeId) (content : String) :
    (d.appendText parent content).1.Planted :=
  h.appendChild_new (h.createText content) (sameLinks_create d _) parent

lemma keptByAppending : KeptByAppending Planted :=
  ⟨fun h => h.appendElement, fun h => h.appendText⟩

lemma build (h : d.Planted) (parent : NodeId) (fixture : Fixture) :
    (d.build parent fixture).1.Planted :=
  keptByAppending.build fixture h parent

/-- No fixture puts a node below itself. -/
theorem ofFixtures {xml : Bool} {fixtures : List Fixture}
    (h : Document.ofFixtures xml fixtures = .ok d) : d.Planted :=
  keptByAppending.ofFixtures (.empty xml) h

end Planted

/-- Whether the ways along all links end within the arena, from every node. These are the links that
the engine's walks follow. -/
structure WalksEnd (d : Document) : Prop where
  parent : ∀ n, Ends d.parent d.size (d.parent n)
  previousSibling : ∀ n, Ends d.previousSibling d.size (d.previousSibling n)
  nextSibling : ∀ n, Ends d.nextSibling d.size (d.nextSibling n)
  children : ∀ n, Ends d.nextSibling d.size (d.firstChild n)
  stepTo : ∀ direction n, Ends (d.stepTo direction) d.size (d.stepTo direction n)
  nextElement : ∀ n, Ends d.nextElement d.size (d.nextElement n)
  preorder : ∀ scope, Ends (d.nextInPreorder scope) d.size (d.firstChild scope)

lemma chain_nextInPreorder (d : Document) (scope : NodeId) (bound : Nat)
    (start : Option NodeId) :
    chain (d.nextInPreorder scope) bound start = d.preorderFrom scope bound start := by
  induction bound generalizing start with
  | zero => cases start <;> rfl
  | succ bound ih =>
    cases start with
    | none => rfl
    | some n => exact congrArg (n :: ·) (ih (d.nextInPreorder scope n))

namespace IsForest

variable (h : d.IsForest)
include h

lemma ends_nextSibling (n : NodeId) : Ends d.nextSibling d.size (d.nextSibling n) := by
  have hrows := (isForest_iff.mp h).1
  cases hp : d.parent n with
  | none =>
    rw [(h.orphan hp).2]
    exact ends_none _
  | some p =>
    obtain ⟨before, after, hc⟩ := h.exists_split hp
    have hlength := h.length_children_le p
    rw [hc, List.length_append, List.length_cons] at hlength
    have hsplit : d.children p = (before ++ [n]) ++ after := by simpa using hc
    rw [(h.siblings hc).2]
    exact hrows.ends_nextSibling hsplit (by omega)

lemma ends_previousSibling (n : NodeId) :
    Ends d.previousSibling d.size (d.previousSibling n) := by
  have hrows := (isForest_iff.mp h).1
  cases hp : d.parent n with
  | none =>
    rw [(h.orphan hp).1]
    exact ends_none _
  | some p =>
    obtain ⟨before, after, hc⟩ := h.exists_split hp
    have hlength := h.length_children_le p
    rw [hc, List.length_append] at hlength
    rw [(h.siblings hc).1]
    exact (hrows.chain_previousSibling hc (by omega)).1

lemma ends_nextElement (n : NodeId) : Ends d.nextElement d.size (d.nextElement n) := by
  have hstep : ∀ {a b}, d.nextElement a = some b → Relation.TransGen (Linked d.nextSibling) a b := by
    intro a b hab
    rw [nextElement] at hab
    cases hnext : d.nextSibling a with
    | none => simp [hnext] at hab
    | some k =>
      rw [hnext] at hab
      exact .head' hnext (reach_of_seek hab)
  have hlt : ∀ {a b}, d.nextElement a = some b → b < d.size := fun hab =>
    lt_size_of_isElement (accept_of_seek hab)
  have hacyclic : ∀ k, ¬ Relation.TransGen (Linked d.nextElement) k k := by
    intro k hk
    have hcycle : Relation.TransGen (Linked d.nextSibling) k k :=
      Relation.TransGen.closed (fun _ _ hab => hstep hab) _ _ hk
    refine not_ends_of_cycle hcycle (d.size + 1) ?_
    exact h.ends_nextSibling k
  cases hnext : d.nextElement n with
  | none => exact ends_none _
  | some k => exact ends_of_acyclic hlt hacyclic (hlt hnext)

lemma ends_preorder (scope : NodeId) :
    Ends (d.nextInPreorder scope) d.size (d.firstChild scope) := by
  obtain hlt | hge := Nat.lt_or_ge scope d.size
  · by_contra hnot
    have hlength := length_chain_of_not_ends hnot
    rw [chain_nextInPreorder,
      h.preorderFrom_firstChild (Nat.le_add_left d.size _) (Nat.le_succ _)] at hlength
    have hlevels := h.length_levels_lt d.size hlt
    omega
  · rw [firstChild_none_of_ge hge]
    exact ends_none _

lemma walksEnd : d.WalksEnd where
  parent n := by
    cases hp : d.parent n with
    | none => exact ends_none _
    | some p => exact h.ends_parent (h.parent_lt_size hp)
  previousSibling := h.ends_previousSibling
  nextSibling := h.ends_nextSibling
  children n := by
    have hrows := (isForest_iff.mp h).1
    have hall : d.children n = [] ++ d.children n := rfl
    rw [hrows.firstChild_eq]
    exact hrows.ends_nextSibling hall (h.length_children_le n)
  stepTo := h.ends_step
  nextElement := h.ends_nextElement
  preorder := h.ends_preorder

lemma parent_rootOf (n : NodeId) : d.parent (d.rootOf n) = none := by
  cases hp : d.parent n with
  | none =>
    obtain heq | ⟨p, hp', -⟩ := Relation.ReflTransGen.cases_head (d.reflTransGen_rootOf n)
    · exact heq ▸ hp
    · exact nomatch hp.symm.trans hp'
  | some p =>
    have hends := h.ends_parent (lt_size_of_parent hp)
    obtain ⟨top, hreach, htop⟩ := exists_end_of_ends hends
    have hfound : (seek d.parent (fun a => (d.parent a).isNone) d.size (some n)).isSome :=
      (seek_isSome_iff hends).mpr ⟨top, hreach, by simp [htop]⟩
    obtain ⟨root, hroot⟩ := Option.isSome_iff_exists.mp hfound
    rw [rootOf, hroot]
    exact Option.isNone_iff_eq_none.mp (accept_of_seek hroot)

/-- Of two nodes of one tree one comes first. -/
theorem precedes_or_precedes {a b : NodeId} (hsame : d.rootOf a = d.rootOf b) (hne : a ≠ b) :
    d.Precedes a b ∨ d.Precedes b a := by
  have hroot := h.rootOf_rootOf b
  have hordered : (d.rootOf b :: d.descendants (d.rootOf b)).Pairwise
      fun a b => d.Precedes a b ∨ d.Precedes b a := (h.pairwise_tree _).imp .inl
  have : Std.Symm fun a b => d.Precedes a b ∨ d.Precedes b a := ⟨fun _ _ => Or.symm⟩
  exact hordered.forall ((h.mem_tree hroot).mpr hsame) ((h.mem_tree hroot).mpr rfl) hne

end IsForest

lemma reaches_of_climb {target n : NodeId} {steps : Nat} {met : Bool} {m : NodeId}
    (hclimb : d.climb target steps n = some (met, m)) :
    Relation.ReflTransGen (Linked d.parent) n m ∧ (met = true → m = target) := by
  induction steps generalizing n with
  | zero =>
    obtain ⟨rfl, rfl⟩ := Prod.mk.inj (Option.some.inj hclimb)
    exact ⟨.refl, fun hmet => absurd hmet Bool.false_ne_true⟩
  | succ steps ih =>
    rw [climb] at hclimb
    cases hp : d.parent n with
    | none => simp [hp] at hclimb
    | some p =>
      simp only [hp] at hclimb
      split at hclimb
      · rename_i htarget
        obtain ⟨rfl, rfl⟩ := Prod.mk.inj (Option.some.inj hclimb)
        exact ⟨.single hp, fun _ => htarget⟩
      · obtain ⟨hreach, hmet⟩ := ih hclimb
        exact ⟨.head hp hreach, hmet⟩

lemma common_parent_of_meet {a b : NodeId} {bound : Nat} (hmeet : (d.meet bound a b).isSome) :
    ∃ p, Relation.ReflTransGen (Linked d.parent) a p ∧
      Relation.ReflTransGen (Linked d.parent) b p := by
  induction bound generalizing a b with
  | zero => exact nomatch hmeet
  | succ bound ih =>
    rw [meet] at hmeet
    cases hp : d.parent a with
    | none => cases hq : d.parent b <;> simp [hp, hq] at hmeet
    | some p =>
      cases hq : d.parent b with
      | none => simp [hp, hq] at hmeet
      | some q =>
        by_cases hpq : p = q
        · exact ⟨p, .single hp, .single (hpq ▸ hq)⟩
        · simp only [hp, hq, Option.some.injEq, if_neg hpq] at hmeet
          obtain ⟨top, hreach, hreach'⟩ := ih hmeet
          exact ⟨top, .head hp hreach, .head hq hreach'⟩

/-- Positions can be compared in one tree, and only there. -/
theorem IsForest.comparePosition_isSome_iff (h : d.IsForest) {a b : NodeId} :
    (d.comparePosition a b).isSome ↔ d.rootOf a = d.rootOf b := by
  have hsame : ∀ {x y z}, Relation.ReflTransGen (Linked d.parent) x z →
      Relation.ReflTransGen (Linked d.parent) y z → d.rootOf x = d.rootOf y := by
    intro x y z hx hy
    exact (h.rootOf_of_reflTransGen hx).trans (h.rootOf_of_reflTransGen hy).symm
  by_cases hne : a = b
  · simp [comparePosition, hne]
  constructor
  · intro hsome
    rw [comparePosition, if_neg hne] at hsome
    cases ha : d.climb b (d.depth a - d.depth b) a with
    | none => simp [ha] at hsome
    | some left =>
      obtain ⟨met, x⟩ := left
      obtain ⟨hx, hmet⟩ := reaches_of_climb ha
      cases met with
      | true => exact hsame hx (hmet rfl ▸ .refl)
      | false =>
        cases hb : d.climb a (d.depth b - d.depth a) b with
        | none => simp [ha, hb] at hsome
        | some right =>
          obtain ⟨met, y⟩ := right
          obtain ⟨hy, hmet⟩ := reaches_of_climb hb
          cases met with
          | true => exact hsame (hmet rfl ▸ .refl) hy
          | false =>
            simp only [ha, hb, Option.isSome_map] at hsome
            obtain ⟨p, hxp, hyp⟩ := common_parent_of_meet hsome
            exact hsame (hx.trans hxp) (hy.trans hyp)
  · intro hroots
    obtain hab | hba := h.precedes_or_precedes hroots hne
    · simp [(h.comparePosition_of_precedes hab).1]
    · simp [(h.comparePosition_of_precedes hba).2]

/-- A document that was made without appending a node below itself is a forest over which every walk
ends, and its walks find what they are for: the top of a tree, what is above or below a node, and the
order of any two nodes of a tree. It stays a forest exactly if the next append is not below the node
that is appended; after one that is, the way up from that node never ends. -/
theorem Planted.forest_walks (h : d.Planted) :
    (∀ n, ¬ Relation.TransGen (Linked d.parent) n n) ∧
    d.WalksEnd ∧
    (∀ n, Relation.ReflTransGen (Linked d.parent) n (d.rootOf n) ∧ d.parent (d.rootOf n) = none) ∧
    (∀ ancestor n, d.contains ancestor n = true ↔
      Relation.TransGen (Linked d.parent) n ancestor) ∧
    (∀ scope n, n ∈ d.descendantElements scope ↔
      Relation.TransGen (Linked d.parent) n scope ∧ d.isElement n = true) ∧
    (∀ a b, (d.comparePosition a b).isSome ↔ d.rootOf a = d.rootOf b) ∧
    ∀ p c, p ≠ c → p < d.size → c < d.size →
      ((d.appendChild p c).IsForest ↔ ¬ Relation.TransGen (Linked d.parent) p c) ∧
      (Relation.TransGen (Linked d.parent) p c →
        Relation.TransGen (Linked (d.appendChild p c).parent) c c ∧
        ∀ bound, ¬ Ends (d.appendChild p c).parent bound (some c)) := by
  have hforest := h.isForest
  refine ⟨h.acyclic, hforest.walksEnd, fun n => ⟨d.reflTransGen_rootOf n, hforest.parent_rootOf n⟩,
    hforest.contains_iff, fun scope n => hforest.mem_descendantElements,
    fun a b => hforest.comparePosition_isSome_iff, fun p c hne hp hc => ⟨?_, fun habove => ?_⟩⟩
  · have hreached := h.reached.appendChild p c
    rw [isForest_iff, ← acyclic_appendChild_iff hne hp hc h.acyclic]
    exact and_iff_right hreached.rows
  · have hnew : (d.appendChild p c).parent c = some p := by
      rw [parent_appendChild hne hp hc, if_pos rfl]
    have hagree : ∀ m, m ≠ c → (d.appendChild p c).parent m = d.parent m := fun m hm => by
      rw [parent_appendChild hne hp hc, if_neg hm]
    have hcycle : Relation.TransGen (Linked (d.appendChild p c).parent) c c :=
      .head' hnew (reaches_of_agree hagree habove.to_reflTransGen)
    exact ⟨hcycle, not_ends_of_cycle hcycle⟩

lemma planted_sample : sample.Planted := by
  have hlist := (Planted.empty false).appendElement root "ul" [("class", "a")]
  have hitem := hlist.appendElement 1 "li" [("class", "b")]
  exact hitem.appendElement 1 "li" [("id", "x"), ("class", "b c")]

/-- The list of the sample may go below nothing that it holds: appended to its own item, it is above
itself. -/
theorem forest_walks_sample :
    sample.Planted ∧ (2 ≠ 1 ∧ 2 < sample.size ∧ 1 < sample.size) ∧
      Relation.TransGen (Linked sample.parent) 2 1 ∧
      ¬ (sample.appendChild 2 1).IsForest ∧
      ∀ bound, ¬ Ends (sample.appendChild 2 1).parent bound (some 1) := by
  obtain ⟨-, -, -, -, -, -, happend⟩ := Planted.forest_walks planted_sample
  have habove : Relation.TransGen (Linked sample.parent) 2 1 :=
    .single (by with_unfolding_all rfl : sample.parent 2 = some 1)
  have hheld : 2 < sample.size ∧ 1 < sample.size := by with_unfolding_all decide
  obtain ⟨hforest, hcycle⟩ := happend 2 1 (by decide) hheld.1 hheld.2
  exact ⟨planted_sample, ⟨by decide, hheld⟩, habove, fun hnew => hforest.mp hnew habove,
    (hcycle habove).2⟩

end Document

end TreeQuery
