import TreeQuery.Proofs.Engine.Shape

/-!
# The order of candidates

Candidates that a query keeps stay in their order as long as one search finds all of them. The
clauses of a group that have no set matcher are one search, and every other clause is one of its
own. What several searches find is put into document order, each element once, also where the
candidates were given in another order or more than once.
-/

namespace TreeQuery

namespace Compiled

/-- The number of searches whose results a compiled selector puts together. -/
def sources : Compiled → Nat
  | .mk _ test plans => test.toList.length + plans.length

lemma sources_le_one {c : Compiled} (h : c.isElementOnly = true) : c.sources ≤ 1 := by
  cases c with
  | mk list test plans =>
    have hplans : plans = [] := List.isEmpty_iff.mp h
    cases test with
    | none => simp [sources, hplans]
    | some t => simp [sources, hplans]

/-- What the searches of a compiled selector find among candidates, one by one. -/
def search : Compiled → Scope → List NodeId → Run (List (List NodeId))
  | .mk _ none plans, s, pool => Run.bracketed (runPlans plans s pool)
  | .mk _ (some t) plans, s, pool => Run.bracketed do
    let tested ← evalPool (some t) s pool
    return tested :: (← runPlans plans s pool)

end Compiled

lemma length_runPlans {s : Scope} (pool : List NodeId) (plans : List Plan) (m : Memo) :
    (runPlans plans s pool m).1.length = plans.length := by
  induction plans generalizing m with
  | nil => rfl
  | cons plan rest ih => exact congrArg (· + 1) (ih _)

lemma Compiled.length_search {s : Scope} (c : Compiled) (pool : List NodeId) (m : Memo) :
    (c.search s pool m).1.length = c.sources := by
  cases c with
  | mk list test plans =>
    cases test with
    | none =>
      have hlength : ((Compiled.mk list none plans).search s pool m).1.length = plans.length :=
        length_runPlans pool plans _
      rw [hlength, sources]
      simp
    | some t =>
      have hlength : ((Compiled.mk list (some t) plans).search s pool m).1.length =
          plans.length + 1 := congrArg (· + 1) (length_runPlans pool plans _)
      rw [hlength, sources]
      simp [Nat.add_comm]

/-- Every search of a selector that thins finds candidates in their order. -/
theorem Compiled.search_sublist {s : Scope} {c : Compiled} (hc : c.Thins) (pool : List NodeId)
    (m : Memo) : ∀ part ∈ (c.search s pool m).1, part.Sublist pool := by
  intro part hpart
  cases c with
  | mk list test plans =>
    cases test with
    | none => exact runPlans_sublist hc pool _ part hpart
    | some t =>
      obtain rfl | hpart := List.mem_cons.mp hpart
      · exact evalPool_sublist (some t) pool m.bump
      · exact runPlans_sublist hc pool _ part hpart

/-- Whether a list is what the parts of a row make together: the members of all parts, in the order
of the row if a single part has members, and in document order otherwise. -/
structure Document.Gathers (d : Document) (parts : List (List NodeId)) (found : List NodeId) :
    Prop where
  members : ∀ n, n ∈ found ↔ ∃ part ∈ parts, n ∈ part
  single : parts.countP (!·.isEmpty) ≤ 1 → found = parts.flatten
  several : 1 < parts.countP (!·.isEmpty) → ∀ scope,
    (∀ part ∈ parts, ∀ n ∈ part, n ∈ d.descendantElements scope) →
      found.Sublist (d.descendantElements scope)

lemma Document.Gathers.sublist {d : Document} {parts : List (List NodeId)} {found : List NodeId}
    (h : d.Gathers parts found) (hlength : parts.length ≤ 1) {pool : List NodeId}
    (hparts : ∀ part ∈ parts, part.Sublist pool) : found.Sublist pool := by
  rw [h.single (Nat.le_trans List.countP_le_length hlength)]
  match parts, hlength with
  | [], _ => exact List.nil_sublist pool
  | [part], _ =>
    rw [List.flatten_singleton]
    exact hparts part List.mem_cons_self

lemma flatten_filter_inhabited (parts : List (List NodeId)) :
    (parts.filter fun part => !part.isEmpty).flatten = parts.flatten := by
  induction parts with
  | nil => rfl
  | cons part rest ih =>
    cases part with
    | nil => exact ih
    | cons n others => simp [ih]

lemma Host.gathers_merge {h : Host} (hforest : h.document.IsForest) (hcompare : h.ComparesInOrder)
    (parts : List (List NodeId)) : h.document.Gathers parts (h.merge parts) where
  members n := mem_merge
  single hfew := by
    rw [List.countP_eq_length_filter] at hfew
    have hnot : ¬1 < (parts.filter fun part => !part.isEmpty).length := by omega
    rw [merge, if_neg hnot, flatten_filter_inhabited]
  several hseveral scope hparts := by
    rw [List.countP_eq_length_filter] at hseveral
    rw [merge, if_pos hseveral, flatten_filter_inhabited]
    apply h.uniqueSort_sublist hforest hcompare
    intro n hn
    obtain ⟨part, hpart, hn⟩ := List.mem_flatten.mp hn
    exact hparts part hpart n hn

lemma Compiled.execute_eq_search (c : Compiled) (s : Scope) (pool : List NodeId) :
    c.execute s pool = s.host.merge <$> c.search s pool := by
  cases c with
  | mk list test plans => cases test <;> rfl

namespace Engine

lemma merge_replicate_nil (h : Host) (count : Nat) : h.merge (List.replicate count []) = [] := by
  apply List.eq_nil_iff_forall_not_mem.mpr
  intro n hn
  obtain ⟨part, hpart, hn⟩ := Host.mem_merge.mp hn
  rw [List.eq_of_mem_replicate hpart] at hn
  exact nomatch hn

variable [PatternLibrary]

/-- What the searches of a query find among candidates, one by one. -/
def searchCandidates (h : Host) (query : String) (candidates : List NodeId) :
    Action (List (List NodeId)) := do
  let selector ← compile query
  match candidates.filter h.document.isElement with
  | [] => return List.replicate selector.value.sources []
  | first :: rest => do
    let adapter ← beginQuery h first
    liftRun (selector.value.search ⟨h, none, adapter.xml⟩ (first :: rest))

/-- Filtering puts together what the searches of the query find. -/
theorem filterCandidates_eq_search (h : Host) (query : String) (candidates : List NodeId)
    (e : Engine) :
    filterCandidates h query candidates e =
      ((searchCandidates h query candidates e).1.map h.merge,
        (searchCandidates h query candidates e).2) := by
  rw [filterCandidates, searchCandidates, Fallible.bind_apply, Fallible.bind_apply]
  rcases compile query e with ⟨_ | selector, e'⟩
  · rfl
  · dsimp only
    cases candidates.filter h.document.isElement with
    | nil =>
      have hmerge := merge_replicate_nil h selector.value.sources
      exact congrArg (fun found => (Except.ok found, e')) hmerge.symm
    | cons first rest =>
      dsimp only
      rw [Fallible.bind_apply, Fallible.bind_apply]
      rcases beginQuery h first e' with ⟨_ | adapter, e''⟩
      · rfl
      · dsimp only
        rw [Compiled.execute_eq_search]
        rfl

/-- The searches of a query that compiles give a result, each in the order of the candidates. -/
theorem exists_searchCandidates (h : Host) {query : String} {e : Engine} {c : Issued Compiled}
    (hc : (compile query e).1 = .ok c) (hthins : c.value.Thins) (candidates : List NodeId) :
    ∃ parts, (searchCandidates h query candidates e).1 = .ok parts ∧
      parts.length = c.value.sources ∧
      ∀ part ∈ parts, part.Sublist (candidates.filter h.document.isElement) := by
  rw [searchCandidates, Fallible.bind_apply]
  rcases hout : compile query e with ⟨_ | c', e'⟩
  · rw [hout] at hc
    exact nomatch hc
  · rw [hout] at hc
    obtain rfl := Except.ok.inj hc
    dsimp only
    cases candidates.filter h.document.isElement with
    | nil =>
      refine ⟨_, rfl, List.length_replicate, ?_⟩
      intro part hpart
      rw [List.eq_of_mem_replicate hpart]
    | cons first rest =>
      obtain ⟨adapter, e'', hbegin⟩ := exists_beginQuery h first e'
      dsimp only
      rw [Fallible.bind_apply, hbegin]
      exact ⟨_, rfl, Compiled.length_search _ _ _, Compiled.search_sublist hthins _ _⟩

end Engine

namespace World

/-- Whatever has happened to an engine, filtering with a query that compiles gives the elements that
the searches of the query find: in the order of the candidates if they are found by one search, and
in document order if several searches find some. -/
theorem filterCandidates_gathers [PatternLibrary] {settings : Settings} {e : Engine}
    (hnew : Engine.new settings = .ok e) (events : List Event) {p : HookedPage}
    (hforest : p.document.IsForest) {query : String} {c : Issued Compiled}
    (hc : (Engine.compile query ((start e).after events).engine).1 = .ok c)
    (candidates : List NodeId) :
    ∃ found parts,
      (Engine.filterCandidates p.host query candidates ((start e).after events).engine).1 =
        .ok found ∧
      (Engine.searchCandidates p.host query candidates ((start e).after events).engine).1 =
        .ok parts ∧
      (c.value.sources ≤ 1 → found.Sublist (candidates.filter p.document.isElement)) ∧
      parts.length = c.value.sources ∧
      (∀ part ∈ parts, part.Sublist (candidates.filter p.document.isElement)) ∧
      p.document.Gathers parts found := by
  have hengine := ((tidy_start hnew).after events).engine
  have hthins : c.value.Thins := ((Engine.compile_keeps query _ hengine).2 c hc).2
  obtain ⟨parts, hsearch, hlength, hparts⟩ :=
    Engine.exists_searchCandidates p.host hc hthins candidates
  rw [p.document_host] at hparts
  have hgathers : p.document.Gathers parts (p.host.merge parts) := by
    have h := Host.gathers_merge (h := p.host) (by simpa using hforest)
      (p.comparesInOrder_host hforest) parts
    rwa [p.document_host] at h
  refine ⟨p.host.merge parts, parts, ?_, hsearch, ?_, hlength, hparts, hgathers⟩
  · rw [Engine.filterCandidates_eq_search, hsearch]
    rfl
  · intro hsources
    exact hgathers.sublist (hlength ▸ hsources) hparts

section Sample

attribute [local instance] PatternLibrary.standard

/-- The engine of the sample run. -/
def sampleEngine : Engine := ((start (.fresh .standard)).after sampleRun).engine

/-- Two searches find items of the list, which are then not in the order they were given in. -/
theorem filterCandidates_gathers_sample :
    Engine.new .standard = .ok (.fresh .standard) ∧ indexedPage.document.IsForest ∧
      (Engine.filterCandidates indexedPage.host "li, li:first" [3, 2] sampleEngine).1 =
        .ok [2, 3] ∧
      ¬[2, 3].Sublist ([3, 2].filter indexedPage.document.isElement) ∧
      ∃ c, (Engine.compile "li, li:first" sampleEngine).1 = .ok c ∧
        ∃ found parts,
          (Engine.filterCandidates indexedPage.host "li, li:first" [3, 2] sampleEngine).1 =
            .ok found ∧
          (Engine.searchCandidates indexedPage.host "li, li:first" [3, 2] sampleEngine).1 =
            .ok parts ∧
          (c.value.sources ≤ 1 →
            found.Sublist ([3, 2].filter indexedPage.document.isElement)) ∧
          parts.length = c.value.sources ∧
          (∀ part ∈ parts, part.Sublist ([3, 2].filter indexedPage.document.isElement)) ∧
          indexedPage.document.Gathers parts found := by
  have hforest : indexedPage.document.IsForest := Document.isForest_sample false
  have hsearch :
      (Engine.searchCandidates indexedPage.host "li, li:first" [3, 2] sampleEngine).1.toOption =
        some [[3, 2], [3]] ∧
      (Engine.compile "li, li:first" sampleEngine).1.toOption.isSome = true := by
    decide +kernel
  have hparts := Fallible.eq_ok_of_toOption hsearch.1
  have hmerge : indexedPage.host.merge [[3, 2], [3]] = [2, 3] := by
    have hgathers := Host.gathers_merge (h := indexedPage.host) hforest
      (indexedPage.comparesInOrder_host hforest) [[3, 2], [3]]
    have hsub := (hgathers.several (by decide) 0 (by with_unfolding_all decide)).filter
      [2, 3].contains
    have hall : (indexedPage.host.merge [[3, 2], [3]]).filter [2, 3].contains =
        indexedPage.host.merge [[3, 2], [3]] := by
      have hparts : ∀ part ∈ [[3, 2], [3]], ∀ n ∈ part, [2, 3].contains n = true := by decide
      refine List.filter_eq_self.mpr fun n hn => ?_
      obtain ⟨part, hpart, hn⟩ := (hgathers.members n).mp hn
      exact hparts part hpart n hn
    have hpool : (indexedPage.host.document.descendantElements 0).filter [2, 3].contains =
        [2, 3] := by
      with_unfolding_all rfl
    rw [hall, hpool] at hsub
    have hsubset : [2, 3] ⊆ indexedPage.host.merge [[3, 2], [3]] := by
      intro n hn
      refine (hgathers.members n).mpr ⟨[3, 2], List.mem_cons_self, ?_⟩
      simpa [or_comm] using hn
    exact hsub.eq_of_length_le (List.subperm_of_subset (by decide) hsubset).length_le
  have hcompiles := hsearch.2
  refine ⟨Engine.new_standard, hforest, ?_, by with_unfolding_all decide, ?_⟩
  · rw [Engine.filterCandidates_eq_search, hparts]
    exact congrArg Except.ok hmerge
  · cases hc : (Engine.compile "li, li:first" sampleEngine).1 with
    | error fault =>
      rw [hc] at hcompiles
      cases hcompiles
    | ok c =>
      exact ⟨c, rfl, filterCandidates_gathers Engine.new_standard sampleRun hforest hc [3, 2]⟩

end Sample

end World

end TreeQuery
