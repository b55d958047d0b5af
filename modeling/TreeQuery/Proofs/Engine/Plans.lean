import TreeQuery.Proofs.Engine.Clauses
import TreeQuery.Proofs.Tree.Positions

/-!
# Plans that engines compile

The plan that an engine makes of a clause with set matchers finds, whenever the engine may run it,
what the parts of the clause find one after the other.
-/

namespace TreeQuery

/-- The stages before the last one draw from the elements below the search root, or without a
context from the whole trees of the candidates. -/
theorem Scope.mem_population_iff {s : Scope} (hforest : s.document.IsForest) {siblingLed : Bool}
    {pool : List NodeId} {n : NodeId} :
    n ∈ s.population siblingLed pool ↔ s.document.isElement n = true ∧
      match s.context with
      | some context =>
        Relation.TransGen (Linked s.document.parent) n (s.document.searchRoot context siblingLed)
      | none => ∃ m ∈ pool, s.document.rootOf n = s.document.rootOf m := by
  rw [population]
  cases s.context with
  | some context => exact hforest.mem_descendantElements.trans and_comm
  | none =>
    have htree : ∀ root, n ∈ (if s.document.isElement root then [root] else []) ++
        s.document.descendantElements root ↔
          s.document.isElement n = true ∧
            Relation.ReflTransGen (Linked s.document.parent) n root := by
      intro root
      rw [List.mem_append, hforest.mem_descendantElements,
        Relation.reflTransGen_iff_eq_or_transGen]
      by_cases hroot : s.document.isElement root = true <;> aesop
    simp only [List.mem_flatMap, htree, Host.roots, mem_distinct, List.mem_map,
      hforest.rootOf_eq_rootOf_iff]
    aesop

namespace World

section

variable [PatternLibrary]

/-- The scopes, candidates and memos with which plans are run: any scope and any of its elements
between queries, and within a query those with which it comes to a plan. -/
inductive Runs (w : World) : Scope → List NodeId → Memo → Prop where
  | between {s : Scope} {pool : List NodeId} : s.document.IsForest →
      (∀ n ∈ pool, s.document.isElement n = true) → w.Runs s pool w.engine.memo
  | within {s : Scope} {plan : Plan} {pool : List NodeId} {m : Memo} :
      w.Reaches ⟨s, .plan plan pool, m⟩ → w.Runs s pool m

variable {A : Adverts} {N : Naming} {settings : Settings} {w : World}

/-- Whenever a sound world runs plans, a plan that bears its names finds what it means. -/
theorem Sound.run_eq_result (hw : w.Sound A N settings) (hlt : w.named < UInt32.size) {s : Scope}
    {pool : List NodeId} {m : Memo} (h : w.Runs s pool m) {plan : Plan} (hplan : plan.Fits N) :
    s.document.IsForest ∧ (∀ n ∈ pool, s.document.isElement n = true) ∧
      (plan.run s pool m).1 = plan.result s pool := by
  cases h with
  | between hforest helem =>
    have hready : w.engine.memo.Ready N ⟨s, pool⟩ (sizeOf plan) none :=
      hw.engine.forgotten.ready hw.engine.memo
    exact ⟨hforest, helem, (Plan.run_gives plan ⟨s, pool⟩ hforest hplan helem _ hready).1⟩
  | within hreaches =>
    obtain ⟨hforest, pool, rfl, helem, -, hready⟩ := hw.ready_of_reaches hlt hreaches
    exact ⟨hforest, helem,
      (Plan.run_gives plan ⟨s, pool⟩ hforest hplan helem _ hready.atMost).1⟩

/-- What an engine makes of a clause with set matchers is a plan, and whenever the engine may run it,
it finds what the parts of the clause find one after the other. -/
theorem run_eq_selected {e : Engine} (hnew : Engine.new settings = .ok e)
    (hw : Relation.ReflTransGen Goes (start e) w) {text : String} {list : SelectorList}
    (hparse : SelectorList.parse text = .ok list) {clause : Clause}
    (hclause : clause ∈ list.clauses) (hset : ∃ t ∈ clause, t.isSet = true) {depth : Nat}
    (hdepth : text.length ≤ depth) {made : Test ⊕ Plan} {engine : Engine}
    (hmade : compileClause depth clause w.engine = (.ok made, engine))
    (hlt : engine.caches.named < UInt32.size) :
    ∃ plan, made = .inr plan ∧ ∀ {w' : World},
      Relation.ReflTransGen Goes (w.handOut clause made engine) w' → w'.named < UInt32.size →
      ∀ {s pool m}, w'.Runs s pool m →
        (plan.run s pool m).1 = clause.selected s pool ∧
          ∀ n, n ∈ s.population clause.leadsWithSibling pool ↔ s.document.isElement n = true ∧
            match s.context with
            | some context => Relation.TransGen (Linked s.document.parent) n
                (s.document.searchRoot context clause.leadsWithSibling)
            | none => ∃ k ∈ pool, s.document.rootOf n = s.document.rootOf k := by
  have hle := (Goes.clause hparse hclause hdepth hmade).named_le
  obtain ⟨A, N, -, hsound⟩ := (sound_start (Engine.sound_new hnew fun _ => none)).goes_star hw
    (Nat.lt_of_le_of_lt hle hlt)
  have hfollows := hsound.compileClause_follows hparse hclause hdepth
  rw [hmade] at hfollows
  obtain ⟨N', hgrows, hengine, hagree⟩ := hfollows hlt
  obtain ⟨plain, hplain, rfl, hfits⟩ := hagree.of_ok
  have hright : (Compile.unnamedClause made).isRight = true := by
    rw [Plain.isRight_clause hplain]
    exact List.any_eq_true.mpr hset
  cases made with
  | inl t => exact nomatch hright
  | inr plan =>
    refine ⟨plan, rfl, fun {w'} hgoes hlt' {s pool m} hruns => ?_⟩
    obtain ⟨A', N'', hgrows', hsound'⟩ :=
      (hsound.handOut hgrows hengine clause hfits).goes_star hgoes hlt'
    obtain ⟨hforest, helem, hrun⟩ :=
      hsound'.run_eq_result hlt' hruns (Plan.Fits.mono hgrows'.keeps plan hfits)
    refine ⟨?_, fun n => Scope.mem_population_iff hforest⟩
    rw [hrun, ← Plan.result_unnamed]
    exact Plain.clauseResult_eq_selected hplain hforest helem

end

section Sample

attribute [local instance] PatternLibrary.standard

def positionalClause : Clause :=
  [⟨"li", .tag "li"⟩, ⟨":first", .pseudo ⟨"first", none, false⟩⟩, ⟨" + ", .combinator .adjacent⟩,
    ⟨"#x", .id "x"⟩]

/-- The first item is found in the population, then what comes next to it among the candidates. -/
def positionalPlan : Plan :=
  .mk 1 [.mk (.check fun s n => s.hasTag "li" n) [.set (.rearrange (·.take 1))]]
    (.mk (.all [.related .adjacent 2 (.anchored 1 0), .check fun s n => s.hasId "x" n]) []) false

def positionalEngine : Engine :=
  { Engine.fresh .standard with
    caches := { (Engine.fresh .standard).caches with named := 2 } }

theorem run_eq_selected_sample :
    Engine.new .standard = .ok (.fresh .standard) ∧
      SelectorList.parse "li:first + #x" = .ok ⟨"li:first + #x", [positionalClause]⟩ ∧
      (∃ t ∈ positionalClause, t.isSet = true) ∧
      compileClause 13 positionalClause (.fresh .standard) =
        (.ok (.inr positionalPlan), positionalEngine) ∧
      positionalEngine.caches.named < UInt32.size ∧
      (positionalPlan.run chainScope [1, 3] positionalEngine.memo).1 = [3] ∧
      positionalClause.selected chainScope [1, 3] = [3] := by
  have hparse : SelectorList.parse "li:first + #x" =
      .ok ⟨"li:first + #x", [positionalClause]⟩ := by
    with_unfolding_all rfl
  have hset : ∃ t ∈ positionalClause, t.isSet = true :=
    ⟨⟨":first", .pseudo ⟨"first", none, false⟩⟩, by simp [positionalClause],
      by with_unfolding_all rfl⟩
  have hmade : compileClause 13 positionalClause (.fresh .standard) =
      (.ok (.inr positionalPlan), positionalEngine) := by
    with_unfolding_all rfl
  have hlt : positionalEngine.caches.named < UInt32.size := by decide
  obtain ⟨plan, hplan, hselected⟩ := run_eq_selected Engine.new_standard .refl hparse (by simp) hset
    (by decide : "li:first + #x".length ≤ 13) hmade hlt
  obtain rfl := Sum.inr.inj hplan
  have hruns : ((start (.fresh .standard)).handOut positionalClause (.inr positionalPlan)
      positionalEngine).Runs chainScope [1, 3] positionalEngine.memo :=
    .between (Document.isForest_sample false) (by with_unfolding_all decide)
  have hrun : (positionalPlan.run chainScope [1, 3] positionalEngine.memo).1 = [3] := by
    with_unfolding_all rfl
  exact ⟨Engine.new_standard, hparse, hset, hmade, hlt, hrun,
    (hselected .refl hlt hruns).1.symm.trans hrun⟩

def firstToken : Token := ⟨":first", .pseudo ⟨"first", none, false⟩⟩

lemma isSet_firstToken : firstToken.isSet = true := by with_unfolding_all rfl

/-- The first item of a list that is no item below a division. -/
def spentPositional : Clause := spentClause ++ [firstToken]

def spentPlan : Plan := .mk 1 [] (.mk spentTest [.set (.rearrange (·.take 1))]) false

def spentPlanEngine : Engine :=
  (compileClause 24 spentPositional (spentStart.spend 4294967294).engine).2

lemma spentPositional_selected : spentPositional.selected chainScope [2, 3] = [2] := by
  have hplain : Plain.clause .standard Registry.standard.plain spentPositional =
      .ok (.inr spentPlan.unnamed) := by
    with_unfolding_all rfl
  have hforest : chainScope.document.IsForest := Document.isForest_sample false
  rw [← Plain.clauseResult_eq_selected hplain hforest (by with_unfolding_all decide)]
  with_unfolding_all rfl

/-- The first element of a class with so long a name is read, but not compiled. -/
theorem longPositional_refused {letters : Nat} (h : 10 * 1024 * 1024 < 32 * (letters + 19)) :
    SelectorList.parse ("." ++ longWord letters ++ ":first") =
        .ok ⟨"." ++ longWord letters ++ ":first", [[longToken letters, firstToken]]⟩ ∧
      (∃ t ∈ [longToken letters, firstToken], t.isSet = true) ∧
      ∃ reason, (compileClause (letters + 7) [longToken letters, firstToken]
        (.fresh .standard)).1 = .error (.invalidPattern reason) := by
  obtain ⟨reason, hrefused⟩ := exists_refusal_longWord h
  have hscan : scan true ":first".toList = .whole [firstToken] := by with_unfolding_all rfl
  have htext : ":first".toList = [':', 'f', 'i', 'r', 's', 't'] := by with_unfolding_all rfl
  have hrest : Written.Boundary ":first".toList := by
    rw [htext]
    exact Written.boundary_cons _ (by decide) (by decide)
  have hsolid : ∀ c ∈ ":first".toList, isBlank c = false := by
    simp [htext, isBlank]
  have hparse := parse_longWord (by omega : 0 < letters) hrest hsolid hscan rfl
  exact ⟨hparse, ⟨firstToken, by simp, isSet_firstToken⟩, reason,
    compileClause_refused hrefused _ _ _ _⟩

/-- When names come again, a plan may lose what its clause selects. A clause whose pattern is
refused compiles to no plan. -/
theorem run_ne_selected_spent :
    (Engine.new spentSettings = .ok (.fresh spentSettings) ∧
      Relation.ReflTransGen Goes (start (.fresh spentSettings)) spentWorld ∧
      SelectorList.parse "ul li:not(div li):first" =
        .ok ⟨"ul li:not(div li):first", [spentPositional]⟩ ∧
      (∃ t ∈ spentPositional, t.isSet = true) ∧
      compileClause 24 spentPositional spentWorld.engine =
        (.ok (.inr spentPlan), spentPlanEngine) ∧
      (spentWorld.handOut spentPositional (.inr spentPlan) spentPlanEngine).Runs chainScope [2, 3]
        spentPlanEngine.memo ∧
      (spentPlan.run chainScope [2, 3] spentPlanEngine.memo).1 = [] ∧
      spentPositional.selected chainScope [2, 3] = [2]) ∧
    SelectorList.parse ("." ++ longWord 450000 ++ ":first") =
        .ok ⟨"." ++ longWord 450000 ++ ":first", [[longToken 450000, firstToken]]⟩ ∧
      (∃ t ∈ [longToken 450000, firstToken], t.isSet = true) ∧
      ∃ reason, (compileClause 450007 [longToken 450000, firstToken] (.fresh .standard)).1 =
        .error (.invalidPattern reason) := by
  have hset : ∃ t ∈ spentPositional, t.isSet = true :=
    ⟨firstToken, by simp [spentPositional], isSet_firstToken⟩
  have hreached : Relation.ReflTransGen Goes (start (.fresh spentSettings)) spentWorld :=
    goes_after _ _
  have hparse : SelectorList.parse "ul li:not(div li):first" =
      .ok ⟨"ul li:not(div li):first", [spentPositional]⟩ := by
    with_unfolding_all rfl
  have hmade : compileClause 24 spentPositional spentWorld.engine =
      (.ok (.inr spentPlan), spentPlanEngine) := by
    rw [spentWorld_eq]
    exact Prod.ext (by with_unfolding_all rfl) rfl
  exact ⟨⟨rfl, hreached, hparse, hset, hmade,
    .between (Document.isForest_sample false) (by with_unfolding_all decide), by decide +kernel,
    spentPositional_selected⟩, longPositional_refused (by decide)⟩

end Sample

end World

end TreeQuery
