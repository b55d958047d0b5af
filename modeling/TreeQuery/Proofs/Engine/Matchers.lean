import TreeQuery.Proofs.Engine.Clauses

/-!
# Matchers that engines make

What an engine makes of one token gives, whenever the engine may run it, what the token means. The
matchers of `:is` and `:not` split every row of candidates by what their argument finds among them.
-/

namespace TreeQuery

/-- A pseudo-class that makes a matcher of what its argument compiles to. -/
theorem Plain.simple_argument [PatternLibrary] {r : Registry} {name argument : String}
    {build : Option String → Recipe} {make : Compiled → Matcher}
    (hget : r.get? name = some (.factory build))
    (hbuild : build (some argument) = .compile argument fun c => .ready (make c)) {c : Compiled}
    (hc : r.plain argument = .ok c) (quoted : Bool) :
    simple r r.plain (.pseudo ⟨name, some argument, quoted⟩) = .ok (make c) := by
  simp only [simple, hget]
  rw [hbuild, follow, hc]
  rfl

/-- What `:is` makes of its argument. -/
def membershipMatcher (c : Compiled) : Matcher :=
  match c.elementTest with
  | some t => .test t
  | none => .set (.members c true)

/-- What `:not` makes of its argument. -/
def negationMatcher (c : Compiled) : Matcher :=
  match c.elementTest with
  | some t => .test (.negation t)
  | none => .set (.members c false)

lemma Compiled.result_of_elementTest {c : Compiled} {t : Test} (h : c.elementTest = some t)
    (s : Scope) (seed : List NodeId) :
    c.result s seed = seed.filter fun n => t.holds (fun _ => false) s n := by
  match c, h with
  | .mk list test [], h =>
    obtain rfl : test = some t := h
    exact result_of_no_plans list (some t) s seed

lemma membershipMatcher_result (c : Compiled) (s : Scope) (seed : List NodeId) :
    (membershipMatcher c).result s seed = seed.filter fun n => (c.result s seed).contains n := by
  unfold membershipMatcher
  cases h : c.elementTest with
  | none => simp [Matcher.result, SetMatcher.result]
  | some t =>
    rw [Compiled.result_of_elementTest h]
    refine List.filter_congr fun n hn => ?_
    simp [hn]

lemma negationMatcher_result (c : Compiled) (s : Scope) (seed : List NodeId) :
    (negationMatcher c).result s seed = seed.filter fun n => !(c.result s seed).contains n := by
  unfold negationMatcher
  cases h : c.elementTest with
  | none => simp [Matcher.result, SetMatcher.result]
  | some t =>
    rw [Compiled.result_of_elementTest h]
    refine List.filter_congr fun n hn => ?_
    simp [hn, Test.holds]

namespace World

section

variable [PatternLibrary]

/-- Makes the matcher of a token that is not a combinator, with a depth for the selectors in it. -/
def makeMatcher (depth : Nat) (value : TokenValue) : Engine.Action Matcher :=
  Engine.liftCompile (Compile.simple .standard (Compile.nestedWithin .standard depth) value)

/-- Whether a world comes from another by an event, by compiling a clause, or by making the matcher
of a token. -/
inductive Proceeds : World → World → Prop where
  | goes {w w' : World} : Goes w w' → Proceeds w w'
  | matcher (w : World) {t : Token} {depth : Nat} : t.Within depth →
      Proceeds w { w with engine := (makeMatcher depth t.value w.engine).2 }

variable {A : Adverts} {N : Naming} {settings : Settings} {w w' : World}

lemma makeMatcher_adds (depth : Nat) (value : TokenValue) :
    (Engine.ledger A .standard settings).Adds (makeMatcher depth value) :=
  Engine.liftCompile_adds (Compile.simple_adds (Compile.nestedWithin_adds depth) value)

lemma named_le_makeMatcher (depth : Nat) (value : TokenValue) (engine : Engine) :
    engine.caches.named ≤ (makeMatcher depth value engine).2.caches.named := by
  have hadds : (Engine.ledger (fun _ => none) .standard engine.settings).Adds
      (makeMatcher depth value) := makeMatcher_adds depth value
  exact hadds engine

lemma named_le_compile (text : String) (engine : Engine) :
    engine.caches.named ≤ (Engine.compile text engine).2.caches.named := by
  have hadds : (Engine.ledger (fun _ => none) .standard engine.settings).Adds
      (Engine.compile text) := Engine.compile_adds text
  exact hadds engine

/-- A token makes in a sound world what it makes plainly. -/
theorem Sound.makeMatcher_follows (hw : w.Sound A N settings) {t : Token} {depth : Nat}
    (ht : t.Within depth) :
    (Engine.ledger A .standard settings).Follows N w.engine (makeMatcher depth t.value w.engine)
      (Plain.simple .standard Registry.standard.plain t.value) Compile.MatcherFollows :=
  Engine.liftCompile_follows hw.engine <| Compile.simple_follows Registry.standard_steady
    (Compile.compiles_nestedWithin Registry.standard_steady (Nat.le_refl depth))
    hw.engine.caches ht

lemma Proceeds.named_le (h : w.Proceeds w') : w.named ≤ w'.named := by
  cases h with
  | goes hgoes => exact hgoes.named_le
  | matcher _ => exact named_le_makeMatcher _ _ w.engine

lemma Sound.proceeds (hw : w.Sound A N settings) (h : w.Proceeds w')
    (hlt : w'.named < UInt32.size) :
    ∃ A' N', N.Grows w.named N' w'.named ∧ w'.Sound A' N' settings := by
  cases h with
  | goes hgoes => exact hw.goes hgoes hlt
  | matcher ht =>
    obtain ⟨N', hgrows, hengine, -⟩ := hw.makeMatcher_follows ht hlt
    exact ⟨A, N', hgrows, hw.withEngine hgrows hengine⟩

lemma Sound.proceeds_star (hw : w.Sound A N settings) (h : Relation.ReflTransGen Proceeds w w')
    (hlt : w'.named < UInt32.size) :
    ∃ A' N', N.Grows w.named N' w'.named ∧ w'.Sound A' N' settings :=
  Sound.reflTransGen Proceeds.named_le Sound.proceeds hw h hlt

lemma proceeds_after (events : List Event) (w : World) :
    Relation.ReflTransGen Proceeds w (w.after events) :=
  (goes_after events w).lift id fun _ _ => .goes

/-- The matcher of a pseudo-class with an argument bears its names, and without them it is the one
that is made plainly. -/
theorem Sound.makes (hw : w.Sound A N settings) {name argument : String} {quoted : Bool}
    {plain : Matcher} (hplain : Plain.simple .standard Registry.standard.plain
      (.pseudo ⟨name, some argument, quoted⟩) = .ok plain) {depth : Nat}
    (hdepth : argument.length < depth) {x : Except SelectorError Matcher} {engine : Engine}
    (hmade : makeMatcher depth (.pseudo ⟨name, some argument, quoted⟩) w.engine = (x, engine))
    (hlt : engine.caches.named < UInt32.size) :
    ∃ N' m, x = .ok m ∧ plain = m.unnamed ∧ m.Fits N' ∧
      N.Grows w.named N' engine.caches.named ∧
      ({ w with engine } : World).Sound A N' settings := by
  let t : Token := ⟨name, .pseudo ⟨name, some argument, quoted⟩⟩
  have ht : t.Within depth := by
    intro call hcall text htext
    obtain rfl := TokenValue.pseudo.inj hcall
    obtain rfl := Option.some.inj htext
    exact hdepth
  have hfollows := hw.makeMatcher_follows ht
  rw [hmade, hplain] at hfollows
  obtain ⟨N', hgrows, hengine, hagree⟩ := hfollows hlt
  obtain ⟨m, rfl, hunnamed, hfits⟩ := hagree.of_ok_right
  exact ⟨N', m, rfl, hunnamed, hfits, hgrows, hw.withEngine hgrows hengine⟩

/-- A text compiles in a sound world to a selector that bears its names. -/
theorem Sound.compiles (hw : w.Sound A N settings) {text : String} {c : Issued Compiled}
    {engine : Engine} (hcompiled : Engine.compile text w.engine = (.ok c, engine))
    (hlt : engine.caches.named < UInt32.size) :
    ∃ N', Registry.standard.plain text = .ok c.value.unnamed ∧ c.value.Fits N' ∧
      N.Grows w.named N' engine.caches.named ∧ ({ w with engine } : World).Sound A N' settings := by
  have hfollows := Engine.compile_follows Registry.standard_steady hw.engine text
  rw [hcompiled] at hfollows
  obtain ⟨N', hgrows, hengine, hagree⟩ := hfollows hlt
  obtain ⟨_, hplain, rfl, hfits⟩ := hagree.of_ok
  exact ⟨N', hplain, hfits, hgrows, hw.withEngine hgrows hengine⟩

/-- A text that compiles is an argument of which a pseudo-class makes its matcher. -/
theorem makes_of_compile {e : Engine} (hnew : Engine.new settings = .ok e)
    (hw : Relation.ReflTransGen Proceeds (start e) w) {text : String} {c : Issued Compiled}
    {engine engine₁ : Engine} (hcompiled : Engine.compile text w.engine = (.ok c, engine))
    {depth : Nat} (hdepth : text.length < depth) {quoted : Bool} {name : String}
    {build : Option String → Recipe} {make : Compiled → Matcher}
    (hget : Registry.standard.get? name = some (.factory build))
    (hbuild : build (some text) = .compile text fun c => .ready (make c))
    {x : Except SelectorError Matcher}
    (hmade : makeMatcher depth (.pseudo ⟨name, some text, quoted⟩) engine = (x, engine₁))
    (hlt : engine₁.caches.named < UInt32.size) :
    Registry.standard.plain text = .ok c.value.unnamed ∧
      ∃ A N m, x = .ok m ∧ make c.value.unnamed = m.unnamed ∧ m.Fits N ∧ c.value.Fits N ∧
        ({ w with engine := engine₁ } : World).Sound A N settings := by
  have hle₁ : engine.caches.named ≤ engine₁.caches.named := by
    simpa [hmade] using named_le_makeMatcher depth (.pseudo ⟨name, some text, quoted⟩) engine
  have hle : w.engine.caches.named ≤ engine.caches.named := by
    simpa [hcompiled] using named_le_compile text w.engine
  have hlt₀ := Nat.lt_of_le_of_lt hle₁ hlt
  obtain ⟨A, N, -, hsound⟩ := (sound_start (Engine.sound_new hnew fun _ => none)).proceeds_star hw
    (Nat.lt_of_le_of_lt hle hlt₀)
  obtain ⟨N₀, hplain, hc, -, hsound₀⟩ := hsound.compiles hcompiled hlt₀
  obtain ⟨N₁, m, hm, hunnamed, hfits, hgrows, hsound₁⟩ :=
    hsound₀.makes (Plain.simple_argument hget hbuild hplain quoted) hdepth hmade hlt
  exact ⟨hplain, A, N₁, m, hm, hunnamed, hfits, Compiled.Fits.mono hgrows.keeps _ hc, hsound₁⟩

/-- Whenever a sound world runs matchers, one that bears its names gives what it means. -/
theorem Sound.apply_eq_result (hw : w.Sound A N settings) (hlt : w.named < UInt32.size) {s : Scope}
    {m : Memo} (h : w.Visits s m) {matcher : Matcher} (hfits : matcher.Fits N)
    {seed : List NodeId} (helem : ∀ n ∈ seed, s.document.isElement n = true) :
    (matcher.apply s seed m).1 = matcher.result s seed := by
  obtain ⟨hforest, pool, hready⟩ := hw.ready_of_visits hlt h
  exact (Matcher.apply_gives matcher ⟨s, pool⟩ hforest hfits seed helem m (hready _)).1

lemma Sound.execute_eq_result (hw : w.Sound A N settings) (hlt : w.named < UInt32.size)
    {s : Scope} {m : Memo} (h : w.Visits s m) {c : Compiled} (hfits : c.Fits N)
    {seed : List NodeId} (helem : ∀ n ∈ seed, s.document.isElement n = true) :
    (c.execute s seed m).1 = c.result s seed := by
  obtain ⟨hforest, pool, hready⟩ := hw.ready_of_visits hlt h
  exact (Compiled.execute_gives c s hforest hfits seed helem m (hready 0).valid).1

/-- The matchers of `:is` and `:not` split every row of elements into what their argument finds
among them and the others, whenever they are run, in the order of the row and as often as each
element stands in it. -/
theorem membership_splits {e : Engine} (hnew : Engine.new settings = .ok e)
    (hw : Relation.ReflTransGen Proceeds (start e) w) {text : String} {c : Issued Compiled}
    {engine engine₁ engine₂ : Engine} (hcompiled : Engine.compile text w.engine = (.ok c, engine))
    {depth : Nat} (hdepth : text.length < depth) {quoted : Bool}
    {x y : Except SelectorError Matcher}
    (his : makeMatcher depth (.pseudo ⟨"is", some text, quoted⟩) engine = (x, engine₁))
    (hnot : makeMatcher depth (.pseudo ⟨"not", some text, quoted⟩) engine₁ = (y, engine₂))
    (hlt : engine₂.caches.named < UInt32.size) :
    ∃ kept left, x = .ok kept ∧ y = .ok left ∧ ∀ {s : Scope} {seed : List NodeId},
      (∀ n ∈ seed, s.document.isElement n = true) → ∃ found : List NodeId, ∀ {w' : World},
        Relation.ReflTransGen Proceeds { w with engine := engine₂ } w' →
        w'.named < UInt32.size → ∀ {m : Memo}, w'.Visits s m →
          (c.value.execute s seed m).1 = found ∧
          (kept.apply s seed m).1 = seed.filter (fun n => found.contains n) ∧
          (left.apply s seed m).1 = seed.filter (fun n => !found.contains n) := by
  have hle : engine₁.caches.named ≤ engine₂.caches.named := by
    simpa [hnot] using named_le_makeMatcher depth (.pseudo ⟨"not", some text, quoted⟩) engine₁
  have hgetIs : Registry.standard.get? "is" = some (.factory membershipRecipe) := by
    with_unfolding_all rfl
  have hgetNot : Registry.standard.get? "not" = some (.factory negationRecipe) := by
    with_unfolding_all rfl
  obtain ⟨hplain, A, N₁, kept, rfl, hkept, hfits, hc, hsound₁⟩ := makes_of_compile hnew hw hcompiled
    hdepth hgetIs (rfl : _ = Recipe.compile text fun c => .ready (membershipMatcher c)) his
    (Nat.lt_of_le_of_lt hle hlt)
  obtain ⟨N₂, left, rfl, hleft, hfits', hgrows₂, hsound₂⟩ := hsound₁.makes
    (Plain.simple_argument hgetNot
      (rfl : _ = Recipe.compile text fun c => .ready (negationMatcher c)) hplain quoted)
    hdepth hnot hlt
  -- What the argument means depends on neither names nor memo: one list for all later moments.
  refine ⟨kept, left, rfl, rfl, fun {s seed} helem =>
    ⟨c.value.result s seed, fun {w'} hproceeds hlt' {m} hvisits => ?_⟩⟩
  obtain ⟨A', N', hgrows, hsound'⟩ := hsound₂.proceeds_star hproceeds hlt'
  have hkeeps := (hgrows₂.trans hgrows).keeps
  refine ⟨?_, ?_, ?_⟩
  · exact hsound'.execute_eq_result hlt' hvisits (Compiled.Fits.mono hkeeps _ hc) helem
  · rw [hsound'.apply_eq_result hlt' hvisits (Matcher.Fits.mono hkeeps _ hfits) helem,
      ← Matcher.result_unnamed, ← hkept, membershipMatcher_result, Compiled.result_unnamed]
  · rw [hsound'.apply_eq_result hlt' hvisits (Matcher.Fits.mono hgrows.keeps _ hfits') helem,
      ← Matcher.result_unnamed, ← hleft, negationMatcher_result, Compiled.result_unnamed]

end

section Sample

attribute [local instance] PatternLibrary.standard

/-- What the text `li:first` compiles to. -/
def firstItem : Compiled :=
  .mk ⟨"li:first", [[⟨"li", .tag "li"⟩, ⟨":first", .pseudo ⟨"first", none, false⟩⟩]]⟩ none
    [.mk 1 [] (.mk (.check fun s n => s.hasTag "li" n) [.set (.rearrange (·.take 1))]) false]

def firstEngine : Engine := (Engine.compile "li:first" (.fresh .standard)).2

def keptEngine : Engine :=
  (makeMatcher 9 (.pseudo ⟨"is", some "li:first", false⟩) firstEngine).2

def leftEngine : Engine :=
  (makeMatcher 9 (.pseudo ⟨"not", some "li:first", false⟩) keptEngine).2

/-- The last item comes first in the row, so that it is the one that is found. -/
theorem membership_splits_sample :
    Engine.new .standard = .ok (.fresh .standard) ∧ "li:first".length < 9 ∧
      Engine.compile "li:first" (.fresh .standard) = (.ok ⟨firstItem, 1⟩, firstEngine) ∧
      makeMatcher 9 (.pseudo ⟨"is", some "li:first", false⟩) firstEngine =
        (.ok (.set (.members firstItem true)), keptEngine) ∧
      makeMatcher 9 (.pseudo ⟨"not", some "li:first", false⟩) keptEngine =
        (.ok (.set (.members firstItem false)), leftEngine) ∧
      leftEngine.caches.named < UInt32.size ∧
      (∀ n ∈ [3, 2, 3], chainScope.document.isElement n = true) ∧
      (firstItem.execute chainScope [3, 2, 3] leftEngine.memo).1 = [3] ∧
      ((Matcher.set (.members firstItem true)).apply chainScope [3, 2, 3] leftEngine.memo).1 =
        [3, 3] ∧
      ((Matcher.set (.members firstItem false)).apply chainScope [3, 2, 3] leftEngine.memo).1 =
        [2] := by
  have hcompiled : Engine.compile "li:first" (.fresh .standard) =
      (.ok ⟨firstItem, 1⟩, firstEngine) :=
    Prod.ext (by with_unfolding_all rfl) rfl
  have his : makeMatcher 9 (.pseudo ⟨"is", some "li:first", false⟩) firstEngine =
      (.ok (.set (.members firstItem true)), keptEngine) :=
    Prod.ext (by with_unfolding_all rfl) rfl
  have hnot : makeMatcher 9 (.pseudo ⟨"not", some "li:first", false⟩) keptEngine =
      (.ok (.set (.members firstItem false)), leftEngine) :=
    Prod.ext (by with_unfolding_all rfl) rfl
  obtain ⟨hlt, helem, hfirst⟩ : leftEngine.caches.named < UInt32.size ∧
      (∀ n ∈ [3, 2, 3], chainScope.document.isElement n = true) ∧
      (firstItem.execute chainScope [3, 2, 3] leftEngine.memo).1 = [3] := by
    with_unfolding_all decide
  obtain ⟨kept, left, hkept, hleft, hsplits⟩ :=
    membership_splits Engine.new_standard .refl hcompiled (by decide) his hnot hlt
  obtain rfl := Except.ok.inj hkept
  obtain rfl := Except.ok.inj hleft
  obtain ⟨found, hfound⟩ := hsplits helem
  have hvisits : World.Visits { start (.fresh .standard) with engine := leftEngine } chainScope
      leftEngine.memo := .between (Document.isForest_sample false)
  obtain ⟨hexecute, hkept, hleft⟩ := hfound .refl hlt hvisits
  obtain rfl := hexecute.symm.trans hfirst
  exact ⟨Engine.new_standard, by decide, hcompiled, his, hnot, hlt, helem, hfirst, hkept, hleft⟩

/-- What the text `div li` was compiled to before the names were spent. -/
def divisionTest : Test :=
  .all [.related .descendant 2 (.check fun s n => s.hasTag "div" n),
    .check fun s n => s.hasTag "li" n]

def divisionItem : Compiled :=
  .mk ⟨"div li", [[⟨"div", .tag "div"⟩, ⟨" ", .combinator .descendant⟩, ⟨"li", .tag "li"⟩]]⟩
    (some divisionTest) []

def againEngine : Engine := (Engine.compile "div li" (spentStart.spend 4294967294).engine).2

def withinEngine : Engine :=
  (makeMatcher 7 (.pseudo ⟨"is", some "div li", false⟩) againEngine).2

def outsideEngine : Engine :=
  (makeMatcher 7 (.pseudo ⟨"not", some "div li", false⟩) withinEngine).2

def listClause : Clause :=
  [⟨"ul", .tag "ul"⟩, ⟨" ", .combinator .descendant⟩, ⟨"li", .tag "li"⟩]

/-- Its walk bears the name of the older one. -/
def listTest : Test :=
  .all [.related .descendant 2 (.check fun s n => s.hasTag "ul" n),
    .check fun s n => s.hasTag "li" n]

def listEngine : Engine := (compileClause 5 listClause outsideEngine).2

def listWorld : World :=
  { spentWorld with engine := outsideEngine }.handOut listClause (.inl listTest) listEngine

def listScope : Scope := spentPage.host.scope (some 0)

def startMemo : Memo := (Engine.beginQuery spentPage.host 0 listEngine).2.memo

/-- What is remembered once the first item was asked. -/
def listMemo : Memo := (listTest.eval listScope 2 startMemo.bump).2

lemma proceeds_listWorld :
    Relation.ReflTransGen Proceeds { spentWorld with engine := outsideEngine } listWorld := by
  have hparse : SelectorList.parse "ul li" = .ok ⟨"ul li", [listClause]⟩ := by
    with_unfolding_all rfl
  have hmade : compileClause 5 listClause outsideEngine = (.ok (.inl listTest), listEngine) :=
    Prod.ext (by with_unfolding_all rfl) rfl
  exact .single (.goes (.clause hparse (by simp) (by decide) hmade))

lemma list_visits : listWorld.Visits listScope listMemo := by
  have hbegin : Engine.beginQuery spentPage.host 0 listEngine =
      (.ok (spentPage.host.adapterAt 0), (Engine.beginQuery spentPage.host 0 listEngine).2) :=
    Prod.ext (by with_unfolding_all rfl) rfl
  have helem : ∀ n ∈ [2, 3], spentPage.document.isElement n = true := by
    with_unfolding_all decide
  exact visits_handOut spentPage_mem_spentWorld outsideEngine listClause listTest hbegin (some 0)
    helem

/-- When names come again, the matchers of `:is` and `:not` may split a row otherwise than by what
their argument finds, in the middle of a query. -/
theorem membership_confused_spent :
    Engine.new spentSettings = .ok (.fresh spentSettings) ∧
      Relation.ReflTransGen Proceeds (start (.fresh spentSettings)) spentWorld ∧
      Engine.compile "div li" spentWorld.engine = (.ok ⟨divisionItem, 1⟩, againEngine) ∧
      "div li".length < 7 ∧
      makeMatcher 7 (.pseudo ⟨"is", some "div li", false⟩) againEngine =
        (.ok (.test divisionTest), withinEngine) ∧
      makeMatcher 7 (.pseudo ⟨"not", some "div li", false⟩) withinEngine =
        (.ok (.test (.negation divisionTest)), outsideEngine) ∧
      (∀ n ∈ [2], listScope.document.isElement n = true) ∧
      Relation.ReflTransGen Proceeds { spentWorld with engine := outsideEngine } listWorld ∧
      listWorld.Visits listScope listMemo ∧
      (divisionItem.execute listScope [2] listMemo).1 = [] ∧
      ((Matcher.test divisionTest).apply listScope [2] listMemo).1 = [2] ∧
      ((Matcher.test (.negation divisionTest)).apply listScope [2] listMemo).1 = [] := by
  obtain ⟨helem, hexecute, hkept, hleft⟩ :
      (∀ n ∈ [2], listScope.document.isElement n = true) ∧
      (divisionItem.execute listScope [2] listMemo).1 = [] ∧
      ((Matcher.test divisionTest).apply listScope [2] listMemo).1 = [2] ∧
      ((Matcher.test (.negation divisionTest)).apply listScope [2] listMemo).1 = [] := by
    decide +kernel
  have hcompiled : Engine.compile "div li" spentWorld.engine =
      (.ok ⟨divisionItem, 1⟩, againEngine) := by
    rw [spentWorld_eq]
    exact Prod.ext (by with_unfolding_all rfl) rfl
  have his : makeMatcher 7 (.pseudo ⟨"is", some "div li", false⟩) againEngine =
      (.ok (.test divisionTest), withinEngine) :=
    Prod.ext (by with_unfolding_all rfl) rfl
  have hnot : makeMatcher 7 (.pseudo ⟨"not", some "div li", false⟩) withinEngine =
      (.ok (.test (.negation divisionTest)), outsideEngine) :=
    Prod.ext (by with_unfolding_all rfl) rfl
  exact ⟨rfl, proceeds_after _ _, hcompiled, by decide, his, hnot, helem, proceeds_listWorld,
    list_visits, hexecute, hkept, hleft⟩

end Sample

end World

end TreeQuery
