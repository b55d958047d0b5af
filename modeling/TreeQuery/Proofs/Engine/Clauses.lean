import TreeQuery.Proofs.Compile.Staged
import TreeQuery.Proofs.Engine.BareWords
import TreeQuery.Proofs.Engine.SpentNames
import TreeQuery.Proofs.Engine.WalkCache

/-!
# Clauses that engines compile

The test that an engine makes of a clause without set matchers is passed, whenever the engine may ask
it, by the elements in which a chain for the clause ends.
-/

namespace TreeQuery

def Compiled.ofClause (clause : Clause) : Test ⊕ Plan → Compiled
  | .inl t => .mk ⟨clause.text, [clause]⟩ (some t) []
  | .inr plan => .mk ⟨clause.text, [clause]⟩ none [plan]

lemma Compiled.ofClause_fits {N : Naming} {made : Test ⊕ Plan} (clause : Clause)
    (h : Compile.ClauseFits N made) : (Compiled.ofClause clause made).Fits N := by
  cases made with
  | inl t => exact ⟨h, trivial⟩
  | inr plan => exact ⟨trivial, h, trivial⟩

namespace World

/-- The scopes and memos with which matchers are run: any scope between queries, and within a query
those that it comes to. -/
inductive Visits (w : World) : Scope → Memo → Prop where
  | between {s : Scope} : s.document.IsForest → w.Visits s w.engine.memo
  | within {s : Scope} {call : Call} {m : Memo} : ¬ call.StartsAfresh →
      w.Reaches ⟨s, call, m⟩ → w.Visits s m

/-- The scopes and memos with which tests are asked: any scope between queries, and within a query
those of the tests that it asks. -/
inductive Asks (w : World) : Scope → Memo → Prop where
  | between {s : Scope} : s.document.IsForest → w.Asks s w.engine.memo
  | within {s : Scope} {t : Test} {n : NodeId} {m : Memo} :
      w.Reaches ⟨s, .eval t n, m⟩ → w.Asks s m

lemma Asks.visits {w : World} {s : Scope} {m : Memo} (h : w.Asks s m) : w.Visits s m := by
  cases h with
  | between hforest => exact .between hforest
  | within hreaches => exact .within (by simp [Call.StartsAfresh]) hreaches

def handOut (w : World) (clause : Clause) (made : Test ⊕ Plan) (engine : Engine) : World :=
  { w with engine, issued := w.issued ++ [.ofClause clause made] }

/-- Once the first element was asked, a query runs on with what is remembered from it. -/
theorem visits_handOut {w : World} {p : HookedPage} (hpage : p ∈ w.pages) (before : Engine)
    (clause : Clause) (t : Test) {engine begun : Engine} {n : NodeId} {adapter : Adapter}
    (hbegin : Engine.beginQuery p.host n engine = (.ok adapter, begun)) (context : Option NodeId)
    {first : NodeId} {rest : List NodeId}
    (helem : ∀ k ∈ first :: rest, p.document.isElement k = true) :
    World.Visits ({ w with engine := before }.handOut clause (.inl t) engine)
      ⟨p.host, context, adapter.xml⟩
      (t.eval ⟨p.host, context, adapter.xml⟩ first begun.memo.bump).2 := by
  have hissued : .ofClause clause (.inl t) ∈
      ({ w with engine := before }.handOut clause (.inl t) engine).issued :=
    List.mem_append_right _ List.mem_cons_self
  have hcomes : Moment.ComesTo
      ⟨⟨p.host, context, adapter.xml⟩, .execute (.ofClause clause (.inl t)) (first :: rest),
        begun.memo⟩
      ⟨⟨p.host, context, adapter.xml⟩, .filter t rest,
        (t.eval ⟨p.host, context, adapter.xml⟩ first begun.memo.bump).2⟩ :=
    (Relation.ReflTransGen.single .executeTest).tail .filterRest
  exact .within (by simp [Call.StartsAfresh])
    ⟨_, .execute context hpage hissued hbegin helem, hcomes⟩

section

variable [PatternLibrary]

/-- Compiles a clause that was read, with a depth for the selectors in it that is enough. -/
def compileClause (depth : Nat) (clause : Clause) : Engine.Action (Test ⊕ Plan) :=
  Engine.liftCompile (Compile.clause .standard (Compile.nestedWithin .standard depth) clause)

/-- Whether a world comes from another by an event, or by compiling a clause of a text. -/
inductive Goes : World → World → Prop where
  | act (w : World) (event : Event) : Goes w (w.act event).1
  | clause {w : World} {text : String} {list : SelectorList} {clause : Clause} {depth : Nat}
      {made : Test ⊕ Plan} {engine : Engine} : SelectorList.parse text = .ok list →
      clause ∈ list.clauses → text.length ≤ depth →
      compileClause depth clause w.engine = (.ok made, engine) →
      Goes w (w.handOut clause made engine)

variable {A : Adverts} {N : Naming} {settings : Settings} {w w' : World}

/-- A clause compiles in a sound world to what it compiles to plainly. -/
theorem Sound.compileClause_follows (hw : w.Sound A N settings) {text : String}
    {list : SelectorList} (hparse : SelectorList.parse text = .ok list) {clause : Clause}
    (hclause : clause ∈ list.clauses) {depth : Nat} (hdepth : text.length ≤ depth) :
    (Engine.ledger A .standard settings).Follows N w.engine (compileClause depth clause w.engine)
      (Plain.clause .standard Registry.standard.plain clause) Compile.ClauseFollows :=
  Engine.liftCompile_follows hw.engine <| Compile.clause_follows Registry.standard_steady
    (Compile.compiles_nestedWithin Registry.standard_steady hdepth) hw.engine.caches
    (SelectorList.parse_within hparse clause hclause)

lemma compileClause_adds (depth : Nat) (clause : Clause) :
    (Engine.ledger A .standard settings).Adds (compileClause depth clause) :=
  Engine.liftCompile_adds (Compile.clause_adds (Compile.nestedWithin_adds depth) clause)

lemma goes_after (events : List Event) (w : World) :
    Relation.ReflTransGen Goes w (w.after events) := by
  induction events generalizing w with
  | nil => exact .refl
  | cons event rest ih => exact .head (.act w event) (ih _)

/-- A clause that starts with a class whose pattern is refused compiles to nothing. -/
theorem compileClause_refused {word reason : String}
    (h : PatternLibrary.refusal? ⟨word⟩ = some reason) (depth : Nat) (raw : String) (rest : Clause)
    (settings : Settings) :
    (compileClause depth (⟨raw, .className word⟩ :: rest) (.fresh settings)).1 =
      .error (.invalidPattern reason) := by
  have hbuild : ClassPattern.build word = .error (.invalidPattern reason) := by
    rw [ClassPattern.build, h]
  simp only [compileClause, Engine.liftCompile, Compile.clause, bind_assoc, List.foldlM_cons,
    Compile.addToken, Compile.simple, Compile.classPattern, hbuild]
  rfl

lemma Goes.named_le (h : w.Goes w') : w.named ≤ w'.named := by
  cases h with
  | act event => exact named_le_act w event
  | @clause text list clause depth made engine _ _ _ hmade =>
    have hadds : (Engine.ledger (fun _ => none) .standard w.engine.settings).Adds
        (compileClause depth clause) := compileClause_adds depth clause
    have hle := hadds w.engine
    rw [hmade] at hle
    exact hle

lemma Sound.handOut (hw : w.Sound A N settings) {N' : Naming} {engine : Engine}
    (hgrows : N.Grows w.named N' engine.caches.named) (he : engine.Sound A .standard settings N')
    (clause : Clause) {made : Test ⊕ Plan} (hfits : Compile.ClauseFits N' made) :
    (w.handOut clause made engine).Sound A N' settings := by
  have hengine := hw.withEngine hgrows he
  refine { hengine with issued := fun c hc => ?_ }
  obtain hc | hc := List.mem_append.mp hc
  · exact hengine.issued c hc
  · obtain rfl := List.mem_singleton.mp hc
    exact Compiled.ofClause_fits clause hfits

lemma Sound.goes (hw : w.Sound A N settings) (h : w.Goes w') (hlt : w'.named < UInt32.size) :
    ∃ A' N', N.Grows w.named N' w'.named ∧ w'.Sound A' N' settings := by
  cases h with
  | act event =>
    obtain ⟨A', N', hgrows, hsound, -⟩ := hw.act event hlt
    exact ⟨A', N', hgrows, hsound⟩
  | @clause text list clause depth made engine hparse hclause hdepth hmade =>
    have hfollows := hw.compileClause_follows hparse hclause hdepth
    rw [hmade] at hfollows
    obtain ⟨N', hgrows, hsound, hagree⟩ := hfollows hlt
    obtain ⟨_, -, -, hfits⟩ := hagree.of_ok
    exact ⟨A, N', hgrows, hw.handOut hgrows hsound clause hfits⟩

lemma Sound.goes_star (hw : w.Sound A N settings) (h : Relation.ReflTransGen Goes w w')
    (hlt : w'.named < UInt32.size) :
    ∃ A' N', N.Grows w.named N' w'.named ∧ w'.Sound A' N' settings :=
  Sound.reflTransGen Goes.named_le Sound.goes hw h hlt

lemma Sound.ready_of_visits (hw : w.Sound A N settings) (hlt : w.named < UInt32.size)
    {s : Scope} {m : Memo} (h : w.Visits s m) :
    s.document.IsForest ∧ ∃ pool, ∀ bound, m.Ready N ⟨s, pool⟩ bound none := by
  cases h with
  | between hforest =>
    exact ⟨hforest, [], fun _ => hw.engine.forgotten.ready hw.engine.memo⟩
  | within hcall hreaches =>
    exact (hw.ready_of_reaches hlt hreaches).within hcall

/-- Whenever a sound world asks tests, a test that bears its names gives what it means. -/
theorem Sound.eval_eq_holds (hw : w.Sound A N settings) (hlt : w.named < UInt32.size) {s : Scope}
    {m : Memo} (h : w.Asks s m) {t : Test} (ht : t.Fits N none) {n : NodeId}
    (helem : s.document.isElement n = true) :
    s.document.IsForest ∧ (t.eval s n m).1 = t.holds (fun _ => false) s n := by
  obtain ⟨hforest, pool, hready⟩ := hw.ready_of_visits hlt h.visits
  exact ⟨hforest, (Test.eval_gives t ⟨s, pool⟩ none hforest ht n helem m (hready _)).1⟩

/-- What an engine makes of a clause without set matchers is a test, and whenever the engine may ask
it, it is passed by the elements that the clause finds. -/
theorem eval_iff_finds {e : Engine} (hnew : Engine.new settings = .ok e)
    (hw : Relation.ReflTransGen Goes (start e) w) {text : String} {list : SelectorList}
    (hparse : SelectorList.parse text = .ok list) {clause : Clause}
    (hclause : clause ∈ list.clauses) (honly : clause.IsElementOnly) {depth : Nat}
    (hdepth : text.length ≤ depth) {made : Test ⊕ Plan} {engine : Engine}
    (hmade : compileClause depth clause w.engine = (.ok made, engine))
    (hlt : engine.caches.named < UInt32.size) :
    ∃ t, made = .inl t ∧ ∀ {w' : World},
      Relation.ReflTransGen Goes (w.handOut clause made engine) w' → w'.named < UInt32.size →
      ∀ {s m}, w'.Asks s m → ∀ {n}, s.document.isElement n = true →
        ((t.eval s n m).1 = true ↔ clause.Finds s n) := by
  have hle := (Goes.clause hparse hclause hdepth hmade).named_le
  obtain ⟨A, N, -, hsound⟩ := (sound_start (Engine.sound_new hnew fun _ => none)).goes_star hw
    (Nat.lt_of_le_of_lt hle hlt)
  have hfollows := hsound.compileClause_follows hparse hclause hdepth
  rw [hmade] at hfollows
  obtain ⟨N', hgrows, hengine, hagree⟩ := hfollows hlt
  obtain ⟨plain, hplain, rfl, hfits⟩ := hagree.of_ok
  obtain ⟨t', ht', hfinds⟩ := Plain.clause_finds honly hplain
  cases made with
  | inr plan => simp [Compile.unnamedClause] at ht'
  | inl t =>
    obtain rfl := Sum.inl.inj ht'
    refine ⟨t, rfl, fun {w'} hgoes hlt' {s m} hasks {n} helem => ?_⟩
    obtain ⟨A', N'', hgrows', hsound'⟩ :=
      (hsound.handOut hgrows hengine clause hfits).goes_star hgoes hlt'
    obtain ⟨hforest, heval⟩ := hsound'.eval_eq_holds hlt' hasks
      (Test.Fits.mono hgrows'.keeps t none hfits) helem
    rw [heval, ← Test.holds_unnamed]
    exact hfinds hforest helem

end

section Sample

attribute [local instance] PatternLibrary.standard

def chainClause : Clause :=
  [⟨"ul", .tag "ul"⟩, ⟨" > ", .combinator .child⟩, ⟨"li", .tag "li"⟩,
    ⟨" + ", .combinator .adjacent⟩, ⟨"#x", .id "x"⟩]

def chainTest : Test :=
  .all [.related .adjacent 3 (.all [.related .child 2 (.check fun s n => s.hasTag "ul" n),
    .check fun s n => s.hasTag "li" n]), .check fun s n => s.hasId "x" n]

def chainEngine : Engine :=
  { Engine.fresh .standard with
    caches := { (Engine.fresh .standard).caches with named := 3 } }

/-- The scope of queries about a page without indexes. -/
def chainScope : Scope :=
  ⟨(Page.mk ⟨Document.sample.nodes, false⟩ 0 .none).host, some 0, false⟩

theorem eval_iff_finds_sample :
    Engine.new .standard = .ok (.fresh .standard) ∧
      SelectorList.parse "ul > li + #x" = .ok ⟨"ul > li + #x", [chainClause]⟩ ∧
      chainClause.IsElementOnly ∧
      compileClause 12 chainClause (.fresh .standard) = (.ok (.inl chainTest), chainEngine) ∧
      chainEngine.caches.named < UInt32.size ∧
      ((chainTest.eval chainScope 3 chainEngine.memo).1 = true ↔ chainClause.Finds chainScope 3) ∧
      chainClause.Finds chainScope 3 := by
  have hparse : SelectorList.parse "ul > li + #x" = .ok ⟨"ul > li + #x", [chainClause]⟩ := by
    with_unfolding_all rfl
  have honly : chainClause.IsElementOnly := by
    simp [Clause.IsElementOnly, chainClause, Plain.simple]
  have hmade : compileClause 12 chainClause (.fresh .standard) =
      (.ok (.inl chainTest), chainEngine) := rfl
  have hlt : chainEngine.caches.named < UInt32.size := by decide
  obtain ⟨t, ht, hfinds⟩ := eval_iff_finds Engine.new_standard .refl hparse (by simp) honly
    (by decide : "ul > li + #x".length ≤ 12) hmade hlt
  obtain rfl := Sum.inl.inj ht
  have hiff := hfinds .refl hlt
    (.between (Document.isForest_sample false) : World.Asks _ chainScope _)
    (rfl : chainScope.document.isElement 3 = true)
  exact ⟨Engine.new_standard, hparse, honly, hmade, hlt, hiff,
    hiff.mp (by with_unfolding_all rfl)⟩

/-- An item of a list that is no item below a division. -/
def spentClause : Clause :=
  [⟨"ul", .tag "ul"⟩, ⟨" ", .combinator .descendant⟩, ⟨"li", .tag "li"⟩,
    ⟨":not(div li)", .pseudo ⟨"not", some "div li", false⟩⟩]

/-- The two walks bear the same name. -/
def spentTest : Test :=
  .all [.related .descendant 2 (.check fun s n => s.hasTag "ul" n),
    .check fun s n => s.hasTag "li" n,
    .negation (.all [.related .descendant 2 (.check fun s n => s.hasTag "div" n),
      .check fun s n => s.hasTag "li" n])]

def spentEngine : Engine :=
  (compileClause 18 spentClause (spentStart.spend 4294967294).engine).2

lemma spentClause_finds : spentClause.IsElementOnly ∧ spentClause.Finds chainScope 2 := by
  have honly : spentClause.IsElementOnly :=
    Clause.isElementOnly_iff.mpr (by with_unfolding_all decide)
  have hplain : Plain.clause .standard Registry.standard.plain spentClause =
      .ok (.inl spentTest.unnamed) := by
    with_unfolding_all rfl
  obtain ⟨t, ht, hfinds⟩ := Plain.clause_finds honly hplain
  obtain rfl := Sum.inl.inj ht
  have hforest : chainScope.document.IsForest := Document.isForest_sample false
  exact ⟨honly, (hfinds hforest rfl).mp (by with_unfolding_all rfl)⟩

/-- A clause of a class with so long a name is read, but not compiled. -/
theorem longClause_refused {letters : Nat} (h : 10 * 1024 * 1024 < 32 * (letters + 19)) :
    SelectorList.parse ("." ++ longWord letters) =
        .ok ⟨"." ++ longWord letters, [[longToken letters]]⟩ ∧
      Clause.IsElementOnly [longToken letters] ∧
      ∃ reason, (compileClause (letters + 1) [longToken letters] (.fresh .standard)).1 =
        .error (.invalidPattern reason) := by
  obtain ⟨reason, hrefused⟩ := exists_refusal_longWord h
  have hparse : SelectorList.parse ("." ++ longWord letters ++ "") =
      .ok ⟨"." ++ longWord letters ++ "", [[longToken letters]]⟩ :=
    parse_longWord (by omega) Written.boundary_nil (by simp) (scan_nil true) rfl
  rw [String.append_empty] at hparse
  have honly : Clause.IsElementOnly [longToken letters] := by
    intro t ht m hm
    obtain rfl := List.mem_singleton.mp ht
    rw [longToken, Plain.simple] at hm
    have hmade := ClassPattern.eq_of_map_build hm
    cases hmade
  exact ⟨hparse, honly, reason, compileClause_refused hrefused _ _ _ _⟩

/-- When names come again, a clause may compile to a test that takes one of its walks for the other.
A clause whose pattern is refused compiles to no test. -/
theorem eval_ne_finds_spent :
    (Engine.new spentSettings = .ok (.fresh spentSettings) ∧
      Relation.ReflTransGen Goes (start (.fresh spentSettings)) spentWorld ∧
      SelectorList.parse "ul li:not(div li)" = .ok ⟨"ul li:not(div li)", [spentClause]⟩ ∧
      spentClause.IsElementOnly ∧
      compileClause 18 spentClause spentWorld.engine = (.ok (.inl spentTest), spentEngine) ∧
      (spentWorld.handOut spentClause (.inl spentTest) spentEngine).Asks chainScope
        spentEngine.memo ∧
      chainScope.document.isElement 2 = true ∧
      (spentTest.eval chainScope 2 spentEngine.memo).1 = false ∧
      spentClause.Finds chainScope 2) ∧
    SelectorList.parse ("." ++ longWord 450000) =
        .ok ⟨"." ++ longWord 450000, [[longToken 450000]]⟩ ∧
      Clause.IsElementOnly [longToken 450000] ∧
      ∃ reason, (compileClause 450001 [longToken 450000] (.fresh .standard)).1 =
        .error (.invalidPattern reason) := by
  obtain ⟨honly, hfinds⟩ := spentClause_finds
  have hreached : Relation.ReflTransGen Goes (start (.fresh spentSettings)) spentWorld :=
    goes_after _ _
  have hparse : SelectorList.parse "ul li:not(div li)" =
      .ok ⟨"ul li:not(div li)", [spentClause]⟩ := by
    with_unfolding_all rfl
  have hmade : compileClause 18 spentClause spentWorld.engine =
      (.ok (.inl spentTest), spentEngine) := by
    rw [spentWorld_eq]
    exact Prod.ext (by with_unfolding_all rfl) rfl
  exact ⟨⟨rfl, hreached, hparse, honly, hmade, .between (Document.isForest_sample false), rfl,
    by decide +kernel, hfinds⟩, longClause_refused (by decide)⟩

end Sample

end World

end TreeQuery
