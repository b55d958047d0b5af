import TreeQuery.Proofs.Compile.Detached
import TreeQuery.Proofs.Compile.Tidy
import TreeQuery.Proofs.Matching.Stages

/-!
# Clauses in stages

A clause is cut behind each compound with a set token. The part before a cut finds the elements that
match its tokens up to the first set token, and narrows them by the tokens from there on. The next
part starts from elements that the combinator at the cut relates to what was found. What a clause
compiles to finds what its parts find one after the other; a clause that is not cut and does not
narrow is the test of the elements in which a chain for it ends.
-/

namespace TreeQuery

/-- Whether a token stands for a set matcher. -/
def Token.isSet [PatternLibrary] (t : Token) : Bool :=
  match Plain.simple .standard Registry.standard.plain t.value with
  | .ok (.set _) => true
  | _ => false

/-- What a token that is not a combinator leaves of candidates. -/
def Token.narrow [PatternLibrary] (t : Token) (s : Scope) (found : List NodeId) : List NodeId :=
  match Plain.simple .standard Registry.standard.plain t.value with
  | .ok m => m.result s found
  | .error _ => []

namespace Clause

/-- A part of a clause: its tokens before the first set token, and the set token with the rest of
its compound. -/
structure Part where
  chain : List Token
  narrowing : List Token

variable [PatternLibrary]

/-- Cuts tokens at the first combinator behind each compound with a set token. The first part stands
alone, every other one has the combinator in front of it. Tokens may start behind a set token. -/
def cut : Bool → List Token → Part × List (Combinator × Part)
  | _, [] => (⟨[], []⟩, [])
  | behindSet, t :: rest =>
    match behindSet, t.combinator? with
    | true, some c =>
      let (next, others) := cut false rest
      (⟨[], []⟩, (c, next) :: others)
    | false, some _ =>
      let (part, others) := cut false rest
      ({ part with chain := t :: part.chain }, others)
    | behindSet, none =>
      if behindSet || t.isSet then
        let (part, others) := cut true rest
        ({ part with narrowing := t :: part.narrowing }, others)
      else
        let (part, others) := cut false rest
        ({ part with chain := t :: part.chain }, others)

/-- Whether a chain for tokens leads to `n` from an element of which something is asked. -/
def Meets (s : Scope) (asked : NodeId → Prop) (tokens : List Token) (n : NodeId) : Prop :=
  ∃ e es, (e :: es).getLast? = some n ∧ asked e ∧ Chain s tokens (e :: es)

open Classical in
/-- What a part finds in a source. -/
noncomputable def Part.found (p : Part) (s : Scope) (asked : NodeId → Prop)
    (source : List NodeId) : List NodeId :=
  p.narrowing.foldl (fun found t => t.narrow s found) (source.filter fun n => Meets s asked p.chain n)

/-- What is found by the last of some parts, each starting from what the one before it finds. All
but the last one draw from the population, the last one from the candidates. -/
noncomputable def staged (s : Scope) (population pool : List NodeId) :
    (List NodeId → List NodeId) → List (Combinator × Part) → List NodeId
  | found, [] => found pool
  | found, (c, next) :: rest =>
    staged s population pool
      (next.found s fun e => ∃ m ∈ found population, s.document.Related c m e) rest

/-- What a clause selects among candidates. -/
noncomputable def selected (clause : Clause) (s : Scope) (pool : List NodeId) : List NodeId :=
  let population := s.population clause.leadsWithSibling pool
  match clause.head?.bind Token.combinator? with
  | some c =>
    let (first, others) := cut false clause.tail
    staged s population pool (first.found s fun e => s.LedBy c e) others
  | none =>
    let (first, others) := cut false clause
    staged s population pool (first.found s fun _ => True) others

variable {s : Scope} {asked : NodeId → Prop} {t : Token} {rest : List Token}
  {population pool : List NodeId}

lemma meets_nil_iff {n : NodeId} :
    Meets s asked [] n ↔ s.document.isElement n = true ∧ asked n := by
  constructor
  · rintro ⟨e, es, hlast, hasked, hchain⟩
    obtain ⟨e', heq, helem⟩ := chain_nil_iff.mp hchain
    obtain ⟨rfl, rfl⟩ := List.cons.inj heq
    obtain rfl := Option.some.inj hlast
    exact ⟨helem, hasked⟩
  · exact fun ⟨helem, hasked⟩ => ⟨n, [], rfl, hasked, .last helem⟩

lemma meets_simple_iff (ht : t.combinator? = none) {n : NodeId} :
    Meets s asked (t :: rest) n ↔ Meets s (fun e => asked e ∧ t.Accepts s e) rest n := by
  constructor
  · rintro ⟨e, es, hlast, hasked, hchain⟩
    obtain ⟨haccepts, hchain⟩ := (chain_simple_iff ht).mp hchain
    exact ⟨e, es, hlast, ⟨hasked, haccepts⟩, hchain⟩
  · rintro ⟨e, es, hlast, ⟨hasked, haccepts⟩, hchain⟩
    exact ⟨e, es, hlast, hasked, .simple ht haccepts hchain⟩

lemma meets_step_iff {c : Combinator} (ht : t.combinator? = some c) {n : NodeId} :
    Meets s asked (t :: rest) n ↔
      Meets s (fun e' => ∃ e, asked e ∧ s.document.Related c e e') rest n := by
  constructor
  · rintro ⟨e, es, hlast, hasked, hchain⟩
    obtain ⟨-, e', es', rfl, hrelated, hchain⟩ := (chain_step_iff ht).mp hchain
    exact ⟨e', es', by simpa using hlast, ⟨e, hasked, hrelated⟩, hchain⟩
  · rintro ⟨e', es, hlast, ⟨e, hasked, hrelated⟩, hchain⟩
    exact ⟨e, e' :: es, by simpa using hlast, hasked, .step ht hrelated.isElement hrelated hchain⟩

lemma finds_iff_meets {clause : Clause} {n : NodeId} :
    clause.Finds s n ↔
      match clause.head?.bind Token.combinator? with
      | some c => Meets s (fun e => s.LedBy c e) clause.tail n
      | none => Meets s (fun _ => True) clause n := by
  unfold Finds Meets
  cases clause.head?.bind Token.combinator? with
  | some c => exact Iff.rfl
  | none => simp

/-- A clause without set tokens is not cut. -/
theorem cut_of_simple : ∀ {tokens : List Token}, (∀ t ∈ tokens, t.isSet = false) →
    cut false tokens = (⟨tokens, []⟩, [])
  | [], _ => rfl
  | t :: rest, h => by
    have hrest := cut_of_simple fun u hu => h u (List.mem_cons_of_mem t hu)
    cases hc : t.combinator? with
    | some c => simp only [cut, hc, hrest]
    | none => simp [cut, hc, h t List.mem_cons_self, hrest]

lemma isElementOnly_iff {clause : Clause} :
    clause.IsElementOnly ↔ ∀ t ∈ clause, t.isSet = false := by
  refine forall₂_congr fun t _ => ?_
  unfold Token.isSet
  split <;> simp_all

/-- Without set tokens a clause selects the elements that it finds. -/
theorem selected_of_simple {clause : Clause} (h : ∀ t ∈ clause, t.isSet = false) {n : NodeId} :
    n ∈ clause.selected s pool ↔ n ∈ pool ∧ clause.Finds s n := by
  have htail : ∀ t ∈ clause.tail, t.isSet = false := fun t ht => h t (List.mem_of_mem_tail ht)
  rw [finds_iff_meets, selected]
  cases clause.head?.bind Token.combinator? with
  | some c => simp [cut_of_simple htail, staged, Part.found]
  | none => simp [cut_of_simple h, staged, Part.found]

end Clause

/-- What a compiled clause finds among candidates. -/
def clauseResult (s : Scope) (pool : List NodeId) : Test ⊕ Plan → List NodeId
  | .inl t => passing (some t) s pool
  | .inr plan => plan.result s pool

/-- Narrowing may stop at an empty row. -/
theorem narrowed_concat {m : Matcher} (hm : m.Thins) (s : Scope) :
    ∀ (ms : List Matcher) (found : List NodeId),
      narrowed (ms ++ [m]) s found = m.result s (narrowed ms s found)
  | [], [] => (List.sublist_nil.mp (m.result_sublist hm [])).symm
  | [], _ :: _ => rfl
  | _ :: _, [] => (List.sublist_nil.mp (m.result_sublist hm [])).symm
  | _ :: rest, _ :: _ => narrowed_concat hm s rest _

namespace Compile.Draft

/-- The members of the last stage that a draft has finished. -/
def members (d : Draft) (s : Scope) (population : List NodeId) : NodeId → Bool :=
  stageMembers d.stages (fun _ => false) s population

/-- What the stage that a draft is at finds in a source. -/
def found (d : Draft) (s : Scope) (population source : List NodeId) : List NodeId :=
  (Stage.mk (.conjunction d.tests) (d.narrowers.getD [])).result (d.members s population) s source

open Classical Clause in
/-- What a draft finds in a source when a part of a clause is added to it. -/
noncomputable def foundWith [PatternLibrary] (d : Draft) (s : Scope) (asked : NodeId → Prop) (p : Part)
    (source : List NodeId) : List NodeId :=
  p.narrowing.foldl (fun found t => t.narrow s found)
    (narrowed (d.narrowers.getD []) s (source.filter fun n => Meets s asked p.chain n))

/-- What a draft selects among candidates when the rest of a clause is added to it. -/
noncomputable def selected [PatternLibrary] (d : Draft) (s : Scope) (population pool : List NodeId)
    (asked : NodeId → Prop) (rest : List Token) : List NodeId :=
  Clause.staged s population pool (d.foundWith s asked (Clause.cut d.narrowers.isSome rest).1)
    (Clause.cut d.narrowers.isSome rest).2

/-- Whether the tests that a draft has gathered since its last stage ask something of elements. -/
def Asks (d : Draft) (s : Scope) (population : List NodeId) (asked : NodeId → Prop) : Prop :=
  ∀ n, s.document.isElement n = true →
    (holdsAll d.tests (d.members s population) s n = true ↔ asked n)

/-- Whether a draft will make a plan. -/
def isStaged (d : Draft) : Bool :=
  d.narrowers.isSome || !d.stages.isEmpty

end Compile.Draft

namespace Plain

open Compile Clause

variable {s : Scope} {population pool : List NodeId} {d d' : Draft} {asked : NodeId → Prop}
  {t : Token} {rest : List Token} {m : Matcher}

lemma endStage_eq (h : d.narrowers = none) : d.endStage = d := by
  rw [Draft.endStage, h]

lemma clauseResult_finish (siblingLed : Bool) :
    clauseResult s pool (d.finish siblingLed) = d.found s (s.population siblingLed pool) pool := by
  unfold Draft.finish
  dsimp only
  split
  · rename_i hstages hnarrowers
    rw [clauseResult, passing, Draft.found, Draft.members, hstages, hnarrowers]
    rfl
  · rfl

/-- A combinator asks for an element of which the same was asked. -/
theorem asks_relate (hforest : s.document.IsForest) (hd : d.Asks s population asked)
    (c : Combinator) (id : MatcherId) :
    (d.relate c id).Asks s population fun n => ∃ e, asked e ∧ s.document.Related c e n := by
  intro n _
  simp only [Draft.relate, holdsAll, Bool.and_true, Test.holds, conjunction_holds]
  rw [hforest.relates_iff]
  constructor
  · rintro ⟨e, he, hholds⟩
    exact ⟨e, (hd e he.isElement).mp hholds, he⟩
  · rintro ⟨e, hasked, he⟩
    exact ⟨e, he, (hd e he.isElement).mpr hasked⟩

lemma isStaged_addCombinator (d : Draft) (c : Combinator) :
    (addCombinator d c).isStaged = d.isStaged := by
  have hend : d.endStage.isStaged = d.isStaged := by
    unfold Draft.endStage
    split
    · rfl
    · simp [Draft.isStaged, *]
  rw [← hend, addCombinator]
  split <;> rfl

lemma isStaged_addMatcher (d : Draft) (m : Matcher) :
    (d.addMatcher m).isStaged = (d.isStaged || m.isSet) := by
  unfold Draft.addMatcher
  split <;> simp [Draft.isStaged, Matcher.isSet, *]

lemma narrowers_addMatcher (h : (d.narrowers.isSome || m.isSet) = true) :
    (d.addMatcher m).narrowers = some (d.narrowers.getD [] ++ [m]) ∧
      (d.addMatcher m).stages = d.stages ∧ (d.addMatcher m).tests = d.tests := by
  cases hnarrowers : d.narrowers with
  | some narrowers => simp [Draft.addMatcher, hnarrowers]
  | none =>
    cases m with
    | set x => simp [Draft.addMatcher, hnarrowers]
    | test test => simp [hnarrowers, Matcher.isSet] at h

/-- Behind a finished stage an element is asked for that the stage has found. -/
theorem asks_endStage {ms : List Matcher} (hnarrowers : d.narrowers = some ms) :
    d.endStage.Asks s population (· ∈ d.found s population population) := by
  intro n _
  simp only [Draft.endStage, hnarrowers, Draft.members, holdsAll, Bool.and_true, Test.holds,
    stageMembers_concat, List.contains_iff_mem]
  rw [Draft.found, hnarrowers]
  rfl

lemma narrowers_endStage (d : Draft) : d.endStage.narrowers = none := by
  unfold Draft.endStage
  split
  · assumption
  · rfl

lemma addCombinator_eq {c : Combinator} (h : d.narrowers = none → d.tests ≠ []) :
    addCombinator d c = d.endStage.relate c 0 := by
  have hne : d.endStage.tests.isEmpty = false := by
    unfold Draft.endStage
    split
    · exact List.isEmpty_eq_false_iff.mpr (h ‹_›)
    · rfl
  rw [addCombinator, hne]
  rfl

lemma isRight_finish (d : Draft) (siblingLed : Bool) :
    (d.finish siblingLed).isRight = d.isStaged := by
  obtain ⟨plan, stages, tests, narrowers⟩ := d
  cases stages <;> cases narrowers <;> rfl

variable [PatternLibrary]

lemma narrow_eq (hm : simple .standard Registry.standard.plain t.value = .ok m) (s : Scope)
    (found : List NodeId) : t.narrow s found = m.result s found := by
  rw [Token.narrow, hm]

lemma addToken_cases (h : addToken .standard Registry.standard.plain d t = .ok d') :
    (∃ c, t.combinator? = some c ∧ d' = addCombinator d c) ∨
      t.combinator? = none ∧
        ∃ m, simple .standard Registry.standard.plain t.value = .ok m ∧ d' = d.addMatcher m := by
  cases hc : t.combinator? with
  | some c =>
    rw [addToken_combinator _ d (combinator?_eq_some_iff.mp hc)] at h
    exact .inl ⟨c, rfl, (Except.ok.inj h).symm⟩
  | none =>
    have hvalue : ∀ c, t.value ≠ .combinator c := by
      intro c hvalue
      rw [combinator?_eq_some_iff.mpr hvalue] at hc
      simp at hc
    rw [addToken_simple _ d hvalue] at h
    cases hm : simple .standard Registry.standard.plain t.value with
    | error e => simp [hm, bind, Except.bind] at h
    | ok m =>
      rw [hm] at h
      exact .inr ⟨rfl, m, rfl, (Except.ok.inj h).symm⟩

lemma isSet_eq (hm : simple .standard Registry.standard.plain t.value = .ok m) :
    t.isSet = m.isSet := by
  rw [Token.isSet, hm]
  cases m <;> rfl

lemma isSet_of_combinator {c : Combinator} (hc : t.combinator? = some c) : t.isSet = false := by
  rw [Token.isSet, combinator?_eq_some_iff.mp hc, simple]

/-- The tokens of a clause tell whether it makes a plan. -/
theorem isStaged_foldlM : ∀ {rest : List Token} {d : Draft},
    rest.foldlM (addToken .standard Registry.standard.plain) d = .ok d' →
      d'.isStaged = (d.isStaged || rest.any Token.isSet)
  | [], d, hfold => by
    obtain rfl := Except.ok.inj hfold
    simp
  | t :: rest, d, hfold => by
    rw [List.foldlM_cons] at hfold
    cases hadd : addToken .standard Registry.standard.plain d t with
    | error e => simp [hadd, bind, Except.bind] at hfold
    | ok next =>
      rw [hadd] at hfold
      rw [isStaged_foldlM hfold, List.any_cons]
      obtain ⟨c, hc, rfl⟩ | ⟨-, m, hm, rfl⟩ := addToken_cases hadd
      · rw [isStaged_addCombinator, isSet_of_combinator hc, Bool.false_or]
      · rw [isStaged_addMatcher, isSet_eq hm, Bool.or_assoc]

lemma found_eq (hd : d.Asks s population asked) {source : List NodeId}
    (hsource : ∀ n ∈ source, s.document.isElement n = true) :
    d.found s population source = d.foundWith s asked ⟨[], []⟩ source := by
  classical
  rw [Draft.found, Stage.result, Draft.foundWith, List.foldl_nil]
  congr 1
  refine List.filter_congr fun n hn => ?_
  rw [Bool.eq_iff_iff, conjunction_holds, hd n (hsource n hn), decide_eq_true_iff, meets_nil_iff]
  exact ⟨fun h => ⟨hsource n hn, h⟩, fun h => h.2⟩

lemma foundWith_of_none (h : d.narrowers = none) (p : Part) :
    d.foundWith s asked p = p.found s asked := by
  funext source
  rw [Draft.foundWith, Part.found, h]
  rfl

lemma found_chain {asked' : NodeId → Prop} {p : Part}
    (h : ∀ n, Meets s asked (t :: p.chain) n ↔ Meets s asked' p.chain n) :
    Part.found { p with chain := t :: p.chain } s asked = p.found s asked' := by
  funext source
  simp only [Part.found]
  congr 1
  exact List.filter_congr fun n _ => decide_eq_decide.mpr (h n)

/-- A matcher that narrows is one more step. -/
theorem foundWith_narrow (hm : simple .standard Registry.standard.plain t.value = .ok m)
    (hnarrowers : d'.narrowers = some (d.narrowers.getD [] ++ [m])) (p : Part) :
    d'.foundWith s asked p = d.foundWith s asked { p with narrowing := t :: p.narrowing } := by
  funext source
  have hthins : m.Thins := thins_of_simple Registry.standard_thins hm
  rw [Draft.foundWith, Draft.foundWith, hnarrowers, Option.getD_some, narrowed_concat hthins,
    List.foldl_cons, narrow_eq hm]

/-- A test asks more of an element. -/
theorem asks_addTest (hd : d.Asks s population asked) {test : Test}
    (htest : simple .standard Registry.standard.plain t.value = .ok (.test test)) :
    Draft.Asks { d with tests := d.tests ++ [test] } s population
      fun n => asked n ∧ t.Accepts s n := by
  intro n helem
  have hdetached : test.Detached := simple_detached htest
  rw [holdsAll_append, Bool.and_eq_true, holdsAll, holdsAll, Bool.and_true, hdetached,
    ← Token.accepts_iff htest]
  exact and_congr_left' (hd n helem)

/-- A combinator goes on with the chain of a part, or cuts behind a set token. -/
theorem selected_addCombinator (hforest : s.document.IsForest)
    (hpopulation : ∀ n ∈ population, s.document.isElement n = true) {c : Combinator}
    (hc : t.combinator? = some c) (hd : d.Asks s population asked)
    (hfirst : d.narrowers = none → d.tests ≠ []) :
    ∃ asked', (addCombinator d c).Asks s population asked' ∧
      ((addCombinator d c).narrowers = none → (addCombinator d c).tests ≠ []) ∧
      (addCombinator d c).selected s population pool asked' rest =
        d.selected s population pool asked (t :: rest) := by
  have hnone : (d.endStage.relate c 0).narrowers = none := narrowers_endStage d
  rw [addCombinator_eq hfirst]
  cases hnarrowers : d.narrowers with
  | none =>
    rw [endStage_eq hnarrowers] at hnone ⊢
    refine ⟨_, asks_relate hforest hd c 0, by simp [Draft.relate], ?_⟩
    rw [Draft.selected, Draft.selected, hnone, foundWith_of_none hnone,
      foundWith_of_none hnarrowers, hnarrowers, Option.isSome_none]
    simp only [cut, hc]
    rw [found_chain fun n => meets_step_iff hc]
  | some ms =>
    refine ⟨_, asks_relate hforest (asks_endStage hnarrowers) c 0, by simp [Draft.relate], ?_⟩
    rw [Draft.selected, Draft.selected, hnone, foundWith_of_none hnone, hnarrowers,
      Option.isSome_none, Option.isSome_some]
    simp only [cut, hc, staged]
    rw [← found_eq hd hpopulation]

/-- Any other token goes on with the chain or the narrowing of a part. -/
theorem selected_addMatcher
    (hm : simple .standard Registry.standard.plain t.value = .ok m) (hc : t.combinator? = none)
    (hd : d.Asks s population asked) :
    ∃ asked', (d.addMatcher m).Asks s population asked' ∧
      ((d.addMatcher m).narrowers = none → (d.addMatcher m).tests ≠ []) ∧
      (d.addMatcher m).selected s population pool asked' rest =
        d.selected s population pool asked (t :: rest) := by
  by_cases hset : (d.narrowers.isSome || m.isSet) = true
  · obtain ⟨hnarrowers, hstages, htests⟩ := narrowers_addMatcher hset
    refine ⟨asked, ?_, by simp [hnarrowers], ?_⟩
    · unfold Draft.Asks Draft.members at hd ⊢
      rwa [hstages, htests]
    · rw [Draft.selected, Draft.selected, hnarrowers, Option.isSome_some,
        foundWith_narrow hm hnarrowers]
      simp only [cut, hc, isSet_eq hm, hset, if_true]
  · rw [Bool.not_eq_true, Bool.or_eq_false_iff, Option.isSome_eq_false_iff,
      Option.isNone_iff_eq_none] at hset
    obtain ⟨hnone, hsimple⟩ := hset
    cases m with
    | set x => exact nomatch hsimple
    | test test =>
      have hadd : d.addMatcher (.test test) = { d with tests := d.tests ++ [test] } := by
        simp [Draft.addMatcher, hnone]
      have hadded : (d.addMatcher (.test test)).narrowers = none := by rw [hadd, hnone]
      refine ⟨_, hadd ▸ asks_addTest hd hm, by simp [hadd], ?_⟩
      rw [Draft.selected, Draft.selected, foundWith_of_none hadded, foundWith_of_none hnone, hadded,
        hnone, Option.isSome_none]
      simp only [cut, hc, isSet_eq hm, Matcher.isSet, Bool.or_self, Bool.false_eq_true, if_false]
      rw [found_chain fun n => meets_simple_iff hc]

/-- With the rest of a clause a draft finds what the parts of the rest find one after the other. -/
theorem found_of_foldlM (hforest : s.document.IsForest)
    (hpopulation : ∀ n ∈ population, s.document.isElement n = true)
    (hpool : ∀ n ∈ pool, s.document.isElement n = true) :
    ∀ {rest : List Token} {d : Draft} {asked : NodeId → Prop}, d.Asks s population asked →
      (d.narrowers = none → d.tests = [] → rest.head?.bind Token.combinator? = none) →
      rest.foldlM (addToken .standard Registry.standard.plain) d = .ok d' →
      d'.found s population pool = d.selected s population pool asked rest
  | [], d, asked, hd, _, hfold => by
    obtain rfl := Except.ok.inj hfold
    exact found_eq hd hpool
  | t :: rest, d, asked, hd, hfirst, hfold => by
    rw [List.foldlM_cons] at hfold
    obtain ⟨next, hadd, hfold⟩ := bind_eq_ok hfold
    have hnext : ∃ asked', next.Asks s population asked' ∧
        (next.narrowers = none → next.tests ≠ []) ∧
        next.selected s population pool asked' rest =
          d.selected s population pool asked (t :: rest) := by
      obtain ⟨c, hc, rfl⟩ | ⟨hc, m, hm, rfl⟩ := addToken_cases hadd
      · refine selected_addCombinator hforest hpopulation hc hd fun hnone htests => ?_
        simp only [List.head?_cons, Option.bind_some, hc] at hfirst
        exact nomatch hfirst hnone htests
      · exact selected_addMatcher hm hc hd
    obtain ⟨asked', hasks, htests, hselected⟩ := hnext
    rw [← hselected]
    exact found_of_foldlM hforest hpopulation hpool hasks
      (fun hnone hnil => absurd hnil (htests hnone)) hfold

/-- What a clause is compiled to finds what the clause selects. -/
theorem clauseResult_eq_selected {clause : Clause} {made : Test ⊕ Plan}
    (hmade : Plain.clause .standard Registry.standard.plain clause = .ok made)
    (hforest : s.document.IsForest) (hpool : ∀ n ∈ pool, s.document.isElement n = true) :
    clauseResult s pool made = clause.selected s pool := by
  obtain ⟨d, hfold, hmade⟩ := bind_eq_ok hmade
  obtain rfl := Except.ok.inj hmade
  have hpopulation : ∀ n ∈ s.population clause.leadsWithSibling pool,
      s.document.isElement n = true := fun n hn => Scope.isElement_of_population hn
  rw [clauseResult_finish, Clause.selected]
  cases hled : clause.head?.bind Token.combinator? with
  | none =>
    have hasks : (Draft.start 0).Asks s (s.population clause.leadsWithSibling pool)
        fun _ => True := fun n _ => by simp [Draft.start, holdsAll]
    exact found_of_foldlM hforest hpopulation hpool hasks (fun _ _ => hled) hfold
  | some c =>
    cases clause with
    | nil => cases hled
    | cons t rest =>
      have hc : t.combinator? = some c := hled
      rw [List.foldlM_cons, addToken_combinator _ _ (combinator?_eq_some_iff.mp hc)] at hfold
      have hasks : ((Draft.start 0).lead c).Asks s (s.population (leadsWithSibling (t :: rest)) pool)
          fun e => s.LedBy c e := fun n _ => by
        simpa [Draft.lead, holdsAll, Test.holds] using hforest.leads_iff rfl c n
      exact found_of_foldlM hforest hpopulation hpool hasks (fun _ h => by cases h) hfold

/-- The set tokens of a clause make a plan of it. -/
theorem isRight_clause {clause : Clause} {made : Test ⊕ Plan}
    (hmade : Plain.clause .standard Registry.standard.plain clause = .ok made) :
    made.isRight = clause.any Token.isSet := by
  obtain ⟨d, hfold, hmade⟩ := bind_eq_ok hmade
  obtain rfl := Except.ok.inj hmade
  have hstaged : d.isStaged = clause.any Token.isSet := by
    simpa [Draft.start, Draft.isStaged] using isStaged_foldlM hfold
  rw [← hstaged, isRight_finish]

/-- A clause without set tokens is compiled to the test of the elements that it finds. -/
theorem clause_finds {clause : Clause} (honly : clause.IsElementOnly) {made : Test ⊕ Plan}
    (hmade : Plain.clause .standard Registry.standard.plain clause = .ok made) :
    ∃ t, made = .inl t ∧ ∀ {s : Scope}, s.document.IsForest → ∀ {n},
      s.document.isElement n = true →
        (t.holds (fun _ => false) s n = true ↔ clause.Finds s n) := by
  have hsimple := isElementOnly_iff.mp honly
  cases made with
  | inr plan =>
    have hset := isRight_clause hmade
    rw [List.any_eq_false.mpr fun t ht => by simp [hsimple t ht]] at hset
    exact nomatch hset
  | inl t =>
    refine ⟨t, rfl, fun {s} hforest {n} helem => ?_⟩
    have hresult : clauseResult s [n] (.inl t) = clause.selected s [n] :=
      clauseResult_eq_selected hmade hforest (by simpa using helem)
    have hmem : n ∈ clause.selected s [n] ↔ n ∈ [n] ∧ clause.Finds s n :=
      selected_of_simple hsimple
    rw [← hresult] at hmem
    simpa [clauseResult, passing] using hmem

end Plain

end TreeQuery
