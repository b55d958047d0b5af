import TreeQuery.Proofs.Matching.Naming
import TreeQuery.Proofs.Tree.Sorting

/-!
# Thinning out candidates

A matcher that only drops candidates leaves the others in their order. Selectors made of such
matchers find in each of their parts a part of the candidates, whatever the memo holds.
-/

namespace TreeQuery

/-- Whether a matcher drops candidates and does nothing else. -/
def Matcher.Thins : Matcher → Prop
  | .test _ => True
  | .set (.rearrange choose) => ∀ seed, (choose seed).Sublist seed
  | .set (.members _ _) => True
  | .set (.found _) => False
  | .set (.apply _) => False

def Stage.Thins : Stage → Prop
  | .mk _ narrowers => ∀ m ∈ narrowers, m.Thins

def Plan.Thins : Plan → Prop
  | .mk _ stages last _ => (∀ stage ∈ stages, stage.Thins) ∧ last.Thins

def Compiled.Thins : Compiled → Prop
  | .mk _ _ plans => ∀ plan ∈ plans, plan.Thins

namespace Run

lemma filterM_sublist (p : NodeId → Run Bool) (xs : List NodeId) (m : Memo) :
    (xs.filterM p m).1.Sublist xs := by
  have aux : ∀ (xs kept : List NodeId) (m : Memo),
      ∃ found : List NodeId, found.Sublist xs ∧ (xs.filterAuxM p kept m).1 = found.reverse ++ kept := by
    intro xs
    induction xs with
    | nil => exact fun kept m => ⟨[], .refl [], rfl⟩
    | cons x xs ih =>
      intro kept m
      obtain ⟨found, hsub, heq⟩ := ih (bif (p x m).1 then x :: kept else kept) (p x m).2
      have hnext : ((x :: xs).filterAuxM p kept m).1 =
          (xs.filterAuxM p (bif (p x m).1 then x :: kept else kept) (p x m).2).1 := rfl
      rw [hnext, heq]
      cases (p x m).1 with
      | true => exact ⟨x :: found, hsub.cons_cons x, by simp⟩
      | false => exact ⟨found, hsub.cons x, rfl⟩
  obtain ⟨found, hsub, heq⟩ := aux xs [] m
  have hfound : (xs.filterM p m).1 = ((xs.filterAuxM p [] m).1).reverse := rfl
  rw [hfound, heq, List.append_nil, List.reverse_reverse]
  exact hsub

end Run

variable {s : Scope}

lemma Matcher.apply_sublist {matcher : Matcher} (h : matcher.Thins) (seed : List NodeId)
    (m : Memo) : (matcher.apply s seed m).1.Sublist seed := by
  match matcher, h with
  | .test t, _ => exact Run.filterM_sublist _ seed m
  | .set (.rearrange choose), h => exact h seed
  | .set (.members selector kept), _ => exact List.filter_sublist

lemma narrow_sublist : ∀ {matchers : List Matcher}, (∀ x ∈ matchers, x.Thins) →
    ∀ (found : List NodeId) (m : Memo), (narrow matchers s found m).1.Sublist found
  | [], _, found, _ => .refl found
  | matcher :: rest, h, found, m => by
    rw [narrow]
    split
    · exact .refl found
    · exact (narrow_sublist (fun x hx => h x (List.mem_cons_of_mem _ hx)) _ _).trans
        (matcher.apply_sublist (h matcher List.mem_cons_self) found m)

lemma Stage.run_sublist {stage : Stage} (h : stage.Thins) (source : List NodeId) (m : Memo) :
    (stage.run s source m).1.Sublist source := by
  cases stage with
  | mk test narrowers =>
    rw [Stage.run]
    exact (narrow_sublist h _ _).trans (Run.filterM_sublist (test.eval s) source m)

lemma Plan.run_sublist {plan : Plan} (h : plan.Thins) (pool : List NodeId) (m : Memo) :
    (plan.run s pool m).1.Sublist pool := by
  cases plan with
  | mk id stages last siblingLed =>
    rw [Plan.run]
    split
    · exact Stage.run_sublist h.2 pool _
    · exact Stage.run_sublist h.2 pool _

lemma runPlans_sublist : ∀ {plans : List Plan}, (∀ plan ∈ plans, plan.Thins) →
    ∀ (pool : List NodeId) (m : Memo), ∀ found ∈ (runPlans plans s pool m).1, found.Sublist pool
  | [], _, _, _, _, hfound => nomatch hfound
  | plan :: rest, h, pool, m, found, hfound => by
    obtain rfl | hfound := List.mem_cons.mp hfound
    · exact Plan.run_sublist (h plan List.mem_cons_self) pool m
    · exact runPlans_sublist (fun x hx => h x (List.mem_cons_of_mem _ hx)) pool _ found hfound

lemma evalPool_sublist (test : Option Test) (pool : List NodeId) (m : Memo) :
    (evalPool test s pool m).1.Sublist pool := by
  cases test with
  | none => exact List.nil_sublist pool
  | some t => exact Run.filterM_sublist _ pool m

/-- What a selector finds is put together from parts of the candidates. -/
theorem Compiled.execute_eq_merge {c : Compiled} (h : c.Thins) (pool : List NodeId) (m : Memo) :
    ∃ results, (c.execute s pool m).1 = s.host.merge results ∧
      ∀ found ∈ results, found.Sublist pool := by
  cases c with
  | mk list test plans =>
    refine ⟨_, rfl, fun found hfound => ?_⟩
    obtain rfl | hfound := List.mem_cons.mp hfound
    · exact evalPool_sublist test pool _
    · exact runPlans_sublist h pool _ found hfound

/-- Parts of what is written down below a scope, put together, are in the order in which it is
written down. -/
theorem Host.merge_sublist {h : Host} (hforest : h.document.IsForest)
    (hcompare : h.ComparesInOrder) {scope : NodeId} {results : List (List NodeId)}
    (hresults : ∀ found ∈ results, found.Sublist (h.document.descendantElements scope)) :
    (h.merge results).Sublist (h.document.descendantElements scope) := by
  have hkept : ∀ found ∈ results.filter fun found => !found.isEmpty,
      found.Sublist (h.document.descendantElements scope) :=
    fun found hfound => hresults found (List.mem_filter.mp hfound).1
  unfold Host.merge
  generalize (results.filter fun found => !found.isEmpty) = kept at hkept ⊢
  dsimp only
  split
  · refine h.uniqueSort_sublist hforest hcompare fun n hn => ?_
    obtain ⟨found, hfound, hn⟩ := List.mem_flatten.mp hn
    exact (hkept found hfound).subset hn
  · rename_i hfew
    match kept, hfew with
    | [], _ => exact List.nil_sublist _
    | [found], _ =>
      rw [List.flatten_singleton]
      exact hkept found List.mem_cons_self
    | _ :: _ :: _, hfew => simp at hfew

/-- A selector that is run on a part of what is written down below a scope finds a part of it. -/
theorem Compiled.execute_sublist (hforest : s.document.IsForest) (hcompare : s.host.ComparesInOrder)
    {c : Compiled} (h : c.Thins) {scope : NodeId} {pool : List NodeId}
    (hpool : pool.Sublist (s.document.descendantElements scope)) (m : Memo) :
    (c.execute s pool m).1.Sublist (s.document.descendantElements scope) := by
  obtain ⟨results, heq, hresults⟩ := Compiled.execute_eq_merge (s := s) h pool m
  rw [heq]
  exact s.host.merge_sublist hforest hcompare fun found hfound => (hresults found hfound).trans hpool

/-- The members of some lists in the order of a list that they are part of, each once. -/
def unionWithin (pool : List NodeId) (results : List (List NodeId)) : List NodeId :=
  pool.filter fun n => results.any (·.contains n)

lemma filter_contains_of_sublist {pool found : List NodeId} (hnodup : pool.Nodup)
    (h : found.Sublist pool) : pool.filter (fun n => found.contains n) = found := by
  induction h with
  | slnil => rfl
  | @cons found pool x h ih =>
    obtain ⟨hx, hnodup⟩ := List.nodup_cons.mp hnodup
    rw [List.filter_cons_of_neg, ih hnodup]
    exact fun hmem => hx (h.subset (List.contains_iff_mem.mp hmem))
  | @cons_cons found pool x h ih =>
    obtain ⟨hx, hnodup⟩ := List.nodup_cons.mp hnodup
    rw [List.filter_cons_of_pos (by simp)]
    congr 1
    rw [← ih hnodup]
    refine List.filter_congr fun n hn => ?_
    have hne : n ≠ x := fun heq => hx (heq ▸ hn)
    rw [ih hnodup]
    simp [hne]

/-- Merging parts of the candidates gives their union. -/
theorem Host.merge_eq_unionWithin {h : Host} (hforest : h.document.IsForest)
    (hcompare : h.ComparesInOrder) {scope : NodeId} {pool : List NodeId}
    (hpool : pool.Sublist (h.document.descendantElements scope)) {results : List (List NodeId)}
    (hresults : ∀ found ∈ results, found.Sublist pool) :
    h.merge results = unionWithin pool results := by
  have hnodup := hforest.nodup_descendantElements scope
  have hsub := h.merge_sublist hforest hcompare fun found hfound =>
    (hresults found hfound).trans hpool
  rw [unionWithin, ← filter_contains_of_sublist hnodup hsub,
    ← filter_contains_of_sublist hnodup hpool, List.filter_filter]
  refine List.filter_congr fun n _ => ?_
  rw [Bool.eq_iff_iff, List.contains_iff_mem, h.mem_merge,
    Bool.and_eq_true, List.any_eq_true, List.contains_iff_mem]
  simp only [List.contains_iff_mem]
  constructor
  · rintro ⟨found, hfound, hn⟩
    exact ⟨⟨found, hfound, hn⟩, (hresults found hfound).subset hn⟩
  · exact And.left

lemma Matcher.result_sublist {matcher : Matcher} (h : matcher.Thins) (seed : List NodeId) :
    (matcher.result s seed).Sublist seed := by
  match matcher, h with
  | .test t, _ => exact List.filter_sublist
  | .set (.rearrange choose), h => exact h seed
  | .set (.members selector kept), _ => exact List.filter_sublist

lemma narrowed_sublist : ∀ {matchers : List Matcher}, (∀ x ∈ matchers, x.Thins) →
    ∀ found : List NodeId, (narrowed matchers s found).Sublist found
  | [], _, found => .refl found
  | matcher :: rest, h, found => by
    rw [narrowed]
    split
    · exact .refl found
    · exact (narrowed_sublist (fun x hx => h x (List.mem_cons_of_mem _ hx)) _).trans
        (matcher.result_sublist (h matcher List.mem_cons_self) found)

lemma Plan.result_sublist {plan : Plan} (h : plan.Thins) (pool : List NodeId) :
    (plan.result s pool).Sublist pool := by
  match plan, h with
  | .mk _ _ (.mk _ _) _, h => exact (narrowed_sublist h.2 _).trans List.filter_sublist

end TreeQuery
