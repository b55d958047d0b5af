import TreeQuery.Proofs.Engine.BareWords
import TreeQuery.Proofs.Engine.CandidateOrder
import TreeQuery.Proofs.Engine.Containment
import TreeQuery.Proofs.Engine.PageIndexes
import TreeQuery.Proofs.Tree.Mutators

/-!
# Bare queries

A query of one word, or of one word after `#` or `.`, is answered by an index where there is one.
The selector that the query compiles to finds the same among all elements below the context: the
mutators of a document set no attribute of an element twice, so the first attribute of a name, which
the selector asks, is every attribute of the name, which the index asks. Only the selector needs a
pattern for a class, and the library may refuse one for a word that is too long.
-/

namespace TreeQuery

lemma ElementData.mem_setAttribute {xml : Bool} {name value : String} {entry : String × String}
    {attributes : List (String × String)} (h : entry ∈ setAttribute.go xml name value attributes) :
    entry.1 = name ∨ ∃ old ∈ attributes, entry.1 = old.1 := by
  induction attributes with
  | nil => exact .inl (List.mem_singleton.mp h ▸ rfl)
  | cons first rest ih =>
    rw [setAttribute.go] at h
    split at h
    · obtain rfl | h := List.mem_cons.mp h
      · exact .inr ⟨first, List.mem_cons_self, rfl⟩
      · exact .inr ⟨entry, List.mem_cons_of_mem _ h, rfl⟩
    · obtain rfl | h := List.mem_cons.mp h
      · exact .inr ⟨entry, List.mem_cons_self, rfl⟩
      · obtain hname | ⟨old, hold, heq⟩ := ih h
        · exact .inl hname
        · exact .inr ⟨old, List.mem_cons_of_mem _ hold, heq⟩

namespace ElementData.NamesOnce

variable {xml : Bool} {e : ElementData}

/-- An attribute is added where there is none of its name. -/
theorem setAttribute (h : e.NamesOnce xml) (name value : String) :
    (e.setAttribute xml name value).NamesOnce xml := by
  unfold NamesOnce at h
  unfold NamesOnce ElementData.setAttribute
  dsimp only
  generalize e.attributes = attributes at h ⊢
  induction attributes with
  | nil => exact List.pairwise_singleton _ _
  | cons first rest ih =>
    obtain ⟨hfirst, hrest⟩ := List.pairwise_cons.mp h
    rw [ElementData.setAttribute.go]
    by_cases hsame : sameName xml first.1 name = true
    · rw [if_pos hsame]
      exact List.pairwise_cons.mpr ⟨hfirst, hrest⟩
    · rw [if_neg hsame]
      apply List.pairwise_cons.mpr
      refine ⟨fun entry hentry => ?_, ih hrest⟩
      obtain hname | ⟨old, hold, heq⟩ := mem_setAttribute hentry
      · rw [hname]
        exact Bool.not_eq_true _ |>.mp hsame
      · rw [heq]
        exact hfirst old hold

lemma removeAttribute (h : e.NamesOnce xml) (name : String) :
    (e.removeAttribute xml name).NamesOnce xml :=
  h.filter _

end ElementData.NamesOnce

/-- No mutator gives an element two attributes of one name. -/
theorem Document.Reached.namesOnce {d : Document} (h : d.Reached) : d.NamesOnce :=
  h.forall_element (P := fun xml e => e.NamesOnce xml) (fun _ _ => .nil)
    (fun he name value => he.setAttribute name value) fun he name => he.removeAttribute name

/-- The indexes of a page find what a seed describes, in document order, whether the page advertises
them or not. -/
theorem HookedPage.fetch_eq {p : HookedPage} (hforest : p.document.IsForest)
    (hnames : p.document.NamesOnce) {seed : Seed} (hseed : seed ≠ .tag "*") (context : NodeId) :
    seed.fetch p.host context =
      (p.document.descendantElements context).filter (seed.describes p.host) := by
  obtain ⟨page, hook⟩ := p
  let indexed : Features :=
    { page.features with idIndex := true, tagIndex := true, classIndex := true }
  let p' : HookedPage := ⟨{ page with features := indexed }, hook⟩
  have hexact : p'.host.Exact := exact_host hforest hnames
  have hasked : seed.IsAsked p'.host.features := by
    rw [features_host]
    exact ⟨by cases seed <;> rfl, hseed⟩
  have hfetch := hexact.fetch_eq hasked context
  cases hook <;> exact hfetch

namespace Seed

/-- The test that a bare query compiles to. -/
def accepts : Seed → Scope → NodeId → Bool
  | .id name, s, n => s.hasId name n
  | .tag name, s, n => s.hasTag name n
  | .className word, s, n => s.hasClass ⟨word⟩ n

variable {query : String} {seed : Seed}

/-- The test that a bare query compiles to passes the elements that its seed describes. -/
theorem accepts_eq_describes (h : ofQuery query = some seed) (host : Host)
    (context : Option NodeId) : seed.accepts (host.scope context) = seed.describes host := by
  obtain ⟨-, hne, hword⟩ := word_of_ofQuery h
  have htoken : ofToken ⟨query, seed.value⟩ = some seed := by
    have hstar := ne_star_of_ofQuery h
    cases seed with
    | id name => rfl
    | className word => rfl
    | tag name =>
      have hname : name ≠ "*" := fun heq => hstar (heq ▸ rfl)
      simp [ofToken, value, hname]
  have hisWord : seed.IsWord := by
    cases seed with
    | id name => exact trivial
    | tag name => exact trivial
    | className word => exact fun c hc => Written.isBlank_eq_false (by decide) (hword c hc)
  have hwords : ∀ word, seed.value = .className word → word.toList ≠ [] := by
    intro word hvalue
    cases seed with
    | id name => cases hvalue
    | tag name => cases hvalue
    | className name => exact TokenValue.className.inj hvalue ▸ hne
  -- what a seed accepts does not depend on the library, so one that builds all patterns will do
  let _ : PatternLibrary := ⟨fun _ => none⟩
  have htest : Plain.simple .standard (fun _ => .error (.unrecognized "")) seed.value =
      .ok (.test (.check seed.accepts)) := by
    cases seed <;> rfl
  funext n
  exact describes_eq htoken hisWord hwords htest (fun _ => false) context n

variable [PatternLibrary]

lemma simple_value (registry : Registry) (nested : String → Except SelectorError Compiled) :
    Plain.simple registry nested seed.value =
      match seed.refusal? with
      | none => .ok (.test (.check seed.accepts))
      | some reason => .error (.invalidPattern reason) := by
  cases seed with
  | id name | tag name => rfl
  | className word =>
    rw [value, Plain.simple, ClassPattern.build, refusal?]
    cases PatternLibrary.refusal? ⟨word⟩ <;> rfl

lemma clause_value (registry : Registry) (text : String) :
    Plain.clause registry registry.plain [⟨text, seed.value⟩] =
      match seed.refusal? with
      | none => .ok (.inl (.check seed.accepts))
      | some reason => .error (.invalidPattern reason) := by
  have hsimple : ∀ sign, seed.value ≠ .combinator sign := by
    cases seed <;> simp [value]
  rw [Plain.clause, List.foldlM_cons, Plain.addToken_simple _ _ hsimple, simple_value]
  cases seed.refusal? <;> rfl

lemma plain_of_ofQuery (h : ofQuery query = some seed) (hbuilt : seed.refusal? = none) :
    ∃ list, Registry.standard.plain query = .ok (.mk list (some (.check seed.accepts)) []) := by
  refine ⟨_, Registry.standard.plain_of_test Registry.standard_steady (parse_of_ofQuery h) rfl ?_⟩
  rw [clause_value, hbuilt]

lemma plain_of_refused (h : ofQuery query = some seed) {reason : String}
    (hrefused : seed.refusal? = some reason) :
    Registry.standard.plain query = .error (.invalidPattern reason) := by
  refine Registry.standard.plain_of_fault Registry.standard_steady (parse_of_ofQuery h) rfl ?_
  rw [clause_value, hrefused]

end Seed

namespace Run

lemma filterM_pure (p : NodeId → Bool) (xs : List NodeId) (m : Memo) :
    (xs.filterM (fun n => (pure (p n) : Run Bool)) m).1 = xs.filter p := by
  have aux : ∀ (xs kept : List NodeId) (m : Memo),
      (xs.filterAuxM (fun n => (pure (p n) : Run Bool)) kept m).1 =
        (xs.filter p).reverse ++ kept := by
    intro xs
    induction xs with
    | nil => exact fun _ _ => rfl
    | cons x xs ih =>
      intro kept m
      have hnext : ((x :: xs).filterAuxM (fun n => (pure (p n) : Run Bool)) kept m).1 =
          (xs.filterAuxM (fun n => (pure (p n) : Run Bool))
            (bif p x then x :: kept else kept) m).1 := rfl
      rw [hnext, ih]
      cases hx : p x with
      | true => simp [hx]
      | false => simp [hx]
  have hfound : (xs.filterM (fun n => (pure (p n) : Run Bool)) m).1 =
      ((xs.filterAuxM (fun n => (pure (p n) : Run Bool)) [] m).1).reverse := rfl
  rw [hfound, aux, List.append_nil, List.reverse_reverse]

end Run

/-- A selector of one check filters candidates, whatever is remembered from matching. -/
theorem Compiled.execute_check (list : SelectorList) (accepts : Scope → NodeId → Bool) (s : Scope)
    (pool : List NodeId) (memo : Memo) :
    ((Compiled.mk list (some (.check accepts)) []).execute s pool memo).1 =
      pool.filter (accepts s) := by
  have heval : (Test.check accepts).eval s = fun n => pure (accepts s n) := by
    funext n
    rw [Test.eval]
  have hgather : ((Compiled.mk list (some (.check accepts)) []).execute s pool memo).1 =
      s.host.merge [(pool.filterM (fun n => (pure (accepts s n) : Run Bool)) memo.bump).1] := by
    rw [execute, evalPool, heval, runPlans]
    rfl
  rw [hgather, Host.merge_singleton, Run.filterM_pure]

/-- A selector whose unnamed form is one check is the check. -/
theorem Compiled.eq_of_unnamed_check {c : Compiled} {list : SelectorList}
    {accepts : Scope → NodeId → Bool}
    (h : c.unnamed = .mk list (some (.check accepts)) []) :
    c = .mk list (some (.check accepts)) [] := by
  cases c with
  | mk list' test plans =>
    rw [unnamed, unnamedTest_eq_map, unnamedPlans_eq_map] at h
    obtain ⟨rfl, htest, hplans⟩ := Compiled.mk.inj h
    obtain rfl := List.map_eq_nil_iff.mp hplans
    obtain ⟨t, rfl, ht⟩ := Option.map_eq_some_iff.mp htest
    cases t <;> simp_all [Test.unnamed]

namespace Engine

variable [PatternLibrary]

/-- Whether a query compiles, and what it compiles to finds the given elements among candidates from
every context and whatever is remembered from matching. -/
def Picks (e : Engine) (h : Host) (query : String) (candidates found : List NodeId) : Prop :=
  ∃ c, (Engine.compile query e).1 = .ok c ∧
    ∀ context memo, (c.value.execute (h.scope context) candidates memo).1 = found

lemma named_selectorList_value (seed : Seed) (source raw : String)
    (nested : String → Compile Compiled) (c : CompileCaches) :
    (Compile.selectorList .standard nested ⟨source, [[⟨raw, seed.value⟩]]⟩ c).2.named =
      c.named + 1 := by
  cases seed with
  | id name | tag name => rfl
  | className word =>
    have hfresh : Compile.freshId c =
        (.ok (.ofNat (c.named + 1)), { c with named := c.named + 1 }) := rfl
    have hnamed := (Compile.classPattern_leaves word { c with named := c.named + 1 }).1
    rcases hout : Compile.classPattern word { c with named := c.named + 1 } with ⟨_ | pattern, c'⟩
    all_goals
      rw [hout] at hnamed
      simp only [Compile.selectorList, Compile.clauses, Compile.clause, bind_assoc,
        List.foldlM_cons, Compile.addToken, Seed.value, Compile.simple, Fallible.bind_apply, hfresh,
        hout]
      exact hnamed

/-- A new engine gives one name to compile a bare query, whether it succeeds or not. -/
theorem named_compile_of_ofQuery {settings : Settings} {query : String} {seed : Seed}
    (h : Seed.ofQuery query = some seed) :
    (Engine.compile query (fresh settings)).2.caches.named = 1 := by
  obtain ⟨source, raw, hparse⟩ : ∃ source raw,
      SelectorList.parse query = .ok ⟨source, [[⟨raw, seed.value⟩]]⟩ :=
    ⟨_, _, Seed.parse_of_ofQuery h⟩
  simp only [Engine.compile, get_bind, liftCompile, Compile.text, Compile.textWithin,
    Compile.modifyGet_bind, Compile.tokenize, hparse]
  change ((Compile.selectorList .standard _ ⟨source, [[⟨raw, seed.value⟩]]⟩ >>= _) _).2.named = 1
  rw [Fallible.bind_apply]
  split
  all_goals
    rename_i hout
    exact (congrArg (fun out => out.2.named) hout).symm.trans
      (named_selectorList_value seed source raw _ _)

/-- A bare query picks the elements that its seed describes, if the library builds its pattern. -/
theorem Sound.picks {A : Adverts} {N : Naming} {settings : Settings} {e : Engine}
    (he : e.Sound A .standard settings N) {query : String} {seed : Seed}
    (h : Seed.ofQuery query = some seed) (hbuilt : seed.refusal? = none)
    (hlt : (Engine.compile query e).2.caches.named < UInt32.size) (host : Host)
    (candidates : List NodeId) :
    e.Picks host query candidates (candidates.filter (seed.describes host)) := by
  obtain ⟨list, hplain⟩ := Seed.plain_of_ofQuery h hbuilt
  obtain ⟨_, _, _, hagree⟩ := Engine.compile_follows Registry.standard_steady he query hlt
  rw [hplain] at hagree
  obtain ⟨c, hc, hunnamed, -⟩ := hagree.of_ok_right
  refine ⟨c, hc, fun context memo => ?_⟩
  rw [Compiled.eq_of_unnamed_check hunnamed.symm, Compiled.execute_check,
    Seed.accepts_eq_describes h]

/-- A bare query does not compile if the library refuses its pattern. -/
theorem Sound.compile_refused {A : Adverts} {N : Naming} {settings : Settings} {e : Engine}
    (he : e.Sound A .standard settings N) {query : String} {seed : Seed}
    (h : Seed.ofQuery query = some seed) {reason : String} (hrefused : seed.refusal? = some reason)
    (hlt : (Engine.compile query e).2.caches.named < UInt32.size) :
    (Engine.compile query e).1 = .error (.invalidPattern reason) := by
  obtain ⟨_, _, _, hagree⟩ := Engine.compile_follows Registry.standard_steady he query hlt
  rw [Seed.plain_of_refused h hrefused] at hagree
  exact hagree.of_error_right

end Engine

namespace World

section

variable [PatternLibrary] {settings : Settings} {e : Engine}

/-- Where a bare query has an answer from an index and the library builds the pattern for it, it
compiles, and its selector picks the answer from the elements below the context, in a new engine and
in one that was asked anything before. -/
theorem quick_eq_picked (hnew : Engine.new settings = .ok e) {p : HookedPage}
    (hreached : p.document.Reached) (hforest : p.document.IsForest) {features : Features}
    {query : String} {context : NodeId} {found : List NodeId}
    (hquick : p.host.quick features query context = some found)
    (hbuilt : ∀ seed, Seed.ofQuery query = some seed → seed.refusal? = none) :
    e.Picks p.host query (p.document.descendantElements context) found ∧
      ∀ events,
        let engine := ((start e).after events).engine
        (Engine.compile query engine).2.caches.named < UInt32.size →
          engine.Picks p.host query (p.document.descendantElements context) found := by
  obtain ⟨seed, hseed, rfl⟩ := Option.map_eq_some_iff.mp hquick
  have hquery : Seed.ofQuery query = some seed := (Option.filter_eq_some_iff.mp hseed).1
  rw [HookedPage.fetch_eq hforest hreached.namesOnce (Seed.ne_star_of_ofQuery hquery)]
  constructor
  · have hnamed : (Engine.compile query e).2.caches.named = 1 := by
      rw [Engine.eq_fresh_of_new hnew]
      exact Engine.named_compile_of_ofQuery hquery
    exact (Engine.sound_new hnew fun _ => none).picks hquery (hbuilt seed hquery)
      (hnamed ▸ by decide) _ _
  · intro events engine hlt
    obtain ⟨A, N, hsound⟩ := sound_after hnew events (fun _ => Engine.compile_adds query) hlt
    exact hsound.engine.picks hquery (hbuilt seed hquery) hlt _ _

end

section Sample

attribute [local instance] PatternLibrary.standard

/-- A document that tells names apart by case, with an id that two elements have, one of them given
anew, and words between blanks of several kinds. -/
def mixedDocument : Document :=
  let list := (Document.empty true).appendElement Document.root "ul" [("class", "\ta\nb ")]
  let item := list.1.appendElement list.2 "li" [("ID", "y"), ("id", "z"), ("id", "x")]
  (item.1.appendElement list.2 "Li" [("class", "b\x0cc"), ("id", "x")]).1

lemma reached_mixedDocument : mixedDocument.Reached :=
  (((Document.Reached.empty true).appendElement _ _ _).appendElement _ _ _).appendElement _ _ _

def mixedPage : HookedPage := ⟨⟨mixedDocument, 0, .none⟩, none⟩

theorem quick_eq_picked_sample :
    Engine.new .standard = .ok (.fresh .standard) ∧ mixedPage.document.Reached ∧
      mixedPage.document.IsForest ∧ mixedPage.host.quick .indexed " .b" 0 = some [1, 3] ∧
      (∀ seed, Seed.ofQuery " .b" = some seed → seed.refusal? = none) ∧
      (Engine.fresh .standard).Picks mixedPage.host " .b"
        (mixedPage.document.descendantElements 0) [1, 3] ∧
      (Engine.compile " .b" sampleEngine).2.caches.named < UInt32.size ∧
      sampleEngine.Picks mixedPage.host " .b" (mixedPage.document.descendantElements 0) [1, 3] := by
  have hforest : mixedPage.document.IsForest :=
    Document.isForest_of_isOrderly (by with_unfolding_all decide)
  have hquery : Seed.ofQuery " .b" = some (.className "b") := by with_unfolding_all rfl
  have hdescribed : (mixedPage.document.descendantElements 0).filter
      ((Seed.className "b").describes mixedPage.host) = [1, 3] := by
    with_unfolding_all rfl
  have hquick : mixedPage.host.quick .indexed " .b" 0 = some [1, 3] := by
    rw [Host.quick, hquery]
    change some ((Seed.className "b").fetch mixedPage.host 0) = some [1, 3]
    rw [HookedPage.fetch_eq hforest reached_mixedDocument.namesOnce
      (Seed.ne_star_of_ofQuery hquery), hdescribed]
  obtain ⟨hbuilds, hlt⟩ : (Seed.className "b").refusal? = none ∧
      (Engine.compile " .b" sampleEngine).2.caches.named < UInt32.size := by
    decide +kernel
  have hbuilt : ∀ seed, Seed.ofQuery " .b" = some seed → seed.refusal? = none := by
    intro seed hseed
    obtain rfl := Option.some.inj (hquery.symm.trans hseed)
    exact hbuilds
  obtain ⟨hfresh, hafter⟩ :=
    quick_eq_picked Engine.new_standard reached_mixedDocument hforest hquick hbuilt
  exact ⟨Engine.new_standard, reached_mixedDocument, hforest, hquick, hbuilt, hfresh, hlt,
    hafter sampleRun hlt⟩

/-- An index answers a query for a class whose name is too long to compile. -/
theorem quick_and_compile_longWord {letters : Nat} (h : 10 * 1024 * 1024 < 32 * (letters + 19))
    {p : HookedPage} (hreached : p.document.Reached) (hforest : p.document.IsForest)
    (hempty : p.document.descendantElements 0 = []) :
    p.host.quick .indexed ("." ++ longWord letters) 0 = some [] ∧
      ∃ reason, (Engine.compile ("." ++ longWord letters) (.fresh .standard)).1 =
        .error (.invalidPattern reason) := by
  have hquery := ofQuery_longWord (by omega : 0 < letters)
  constructor
  · rw [Host.quick, hquery]
    change some ((Seed.className _).fetch p.host 0) = some []
    rw [HookedPage.fetch_eq hforest hreached.namesOnce (Seed.ne_star_of_ofQuery hquery), hempty]
    rfl
  · obtain ⟨reason, hrefused⟩ := exists_refusal_longWord h
    have hnamed :
        (Engine.compile ("." ++ longWord letters) (.fresh .standard)).2.caches.named = 1 :=
      Engine.named_compile_of_ofQuery hquery
    exact ⟨reason, (Engine.sound_new Engine.new_standard fun _ => none).compile_refused hquery
      hrefused (hnamed ▸ by decide)⟩

/-- The index of an empty page answers a query that does not compile. -/
theorem quick_ne_picked_longWord :
    let p : HookedPage := ⟨⟨.empty false, 0, .indexed⟩, none⟩
    p.document.Reached ∧ p.document.IsForest ∧
      p.host.quick .indexed ("." ++ longWord 450000) 0 = some [] ∧
      ∃ reason, (Engine.compile ("." ++ longWord 450000) (.fresh .standard)).1 =
        .error (.invalidPattern reason) := by
  intro p
  have hforest : p.document.IsForest := Document.isForest_empty false
  exact ⟨.empty false, hforest,
    quick_and_compile_longWord (by decide) (.empty false) hforest rfl⟩

end Sample

end World

end TreeQuery
