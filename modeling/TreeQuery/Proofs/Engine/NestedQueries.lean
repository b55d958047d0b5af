import TreeQuery.Proofs.Matching.Apart
import TreeQuery.Proofs.Engine.Containment
import TreeQuery.Proofs.Engine.Matchers

/-!
# Nested queries

The matcher of `:has` accepts an element, whenever an engine may ask it, when a query from the
element selects something. The executions in which it is asked come out as if it had not shared
their memo.
-/

namespace TreeQuery

lemma Matcher.eq_has_of_unnamed {m : Matcher} {c : Compiled}
    (h : .test (.has c) = m.unnamed) : ∃ selector, m = .test (.has selector) ∧
      c = selector.unnamed := by
  match m, h with
  | .test (.has selector), h => exact ⟨selector, rfl, Test.has.inj (Matcher.test.inj h)⟩

namespace World

section

variable [PatternLibrary]

/-- Whether an engine has come to a world and its queries about a page take no shortcuts: neither
the fast path nor the page's own answers. -/
inductive Unaided : World → HookedPage → Prop where
  | mk {settings : Settings} {e : Engine} {w : World} {p : HookedPage} :
      Engine.new settings = .ok e → Relation.ReflTransGen Proceeds (start e) w →
      settings.execution.fastPath = false → p ∈ w.pages →
      (settings.execution.nativeSelect && p.features.nativeSelect) = false → Unaided w p

variable {A : Adverts} {N : Naming} {settings : Settings} {w : World} {p : HookedPage}

lemma Unaided.select_eq_scan (h : w.Unaided p) {text : String} {c : Compiled}
    (hc : Registry.standard.plain text = .ok c) {n : NodeId}
    (helem : p.document.isElement n = true)
    (hlt : (Engine.select p.host text n w.engine).2.caches.named < UInt32.size) :
    (Engine.select p.host text n w.engine).1 = .ok (p.host.scan c n) := by
  obtain ⟨hnew, hproceeds, hfast, hp, hnative⟩ := h
  have hadds : (Engine.ledger (fun _ => none) .standard w.engine.settings).Adds
      (Engine.select p.host text n) := Engine.select_adds p.host text n
  obtain ⟨A, N, -, hsound⟩ := (sound_start (Engine.sound_new hnew fun _ => none)).proceeds_star
    hproceeds (Nat.lt_of_le_of_lt (hadds w.engine) hlt)
  have hroot : p.host.document.isQueryRoot n = true := by
    simp [Document.isQueryRoot, helem]
  rw [hsound.select_eq hp text n hlt, Host.select_eq_scan hfast (by simpa using hnative) hc n,
    if_pos hroot]

/-- Whenever a sound world runs matchers, the test of `:has` is passed by the elements from which
its selector finds something. -/
theorem Sound.has_eq_scan (hw : w.Sound A N settings) (hlt : w.named < UInt32.size) {h : Host}
    {context : Option NodeId} {m : Memo} (hvisits : w.Visits (h.scope context) m)
    {selector : Compiled} (hfits : selector.Fits N) {n : NodeId}
    (helem : h.document.isElement n = true) :
    ((Test.has selector).eval (h.scope context) n m).1 = !(h.scan selector n).isEmpty := by
  obtain ⟨hforest, pool, hready⟩ := hw.ready_of_visits hlt hvisits
  exact (Test.eval_gives (.has selector) ⟨h.scope context, pool⟩ none hforest hfits n helem m
    (hready _)).1

/-- The matcher of `:has` accepts an element, whenever it is asked, when the query for its argument
selects something from there without shortcuts. Nothing that is executed comes out differently when
every `:has` in it is asked on a memo of its own. -/
theorem has_iff_select {e : Engine} (hnew : Engine.new settings = .ok e)
    (hw : Relation.ReflTransGen Proceeds (start e) w) {text : String} {c : Issued Compiled}
    {engine engine₁ : Engine} (hcompiled : Engine.compile text w.engine = (.ok c, engine))
    {depth : Nat} (hdepth : text.length < depth) {quoted : Bool}
    {x : Except SelectorError Matcher}
    (hhas : makeMatcher depth (.pseudo ⟨"has", some text, quoted⟩) engine = (x, engine₁))
    (hlt : engine₁.caches.named < UInt32.size) :
    ∃ selector, x = .ok (.test (.has selector)) ∧ ∀ {w' : World},
      Relation.ReflTransGen Proceeds { w with engine := engine₁ } w' → w'.named < UInt32.size →
      (∀ {w₂ : World} {p : HookedPage}, w₂.Unaided p → ∀ {n},
        p.document.isElement n = true →
        (Engine.select p.host text n w₂.engine).2.caches.named < UInt32.size →
        ∃ found, (Engine.select p.host text n w₂.engine).1 = .ok found ∧
          ∀ {context m}, w'.Visits (p.host.scope context) m →
            (((Test.has selector).eval (p.host.scope context) n m).1 = true ↔ found ≠ [])) ∧
      (∀ {s outer pool m}, w'.Reaches ⟨s, .execute outer pool, m⟩ →
        (outer.apart.execute s pool m).1 = (outer.execute s pool m).1) ∧
      (∀ {s outer pool m}, w'.Reaches ⟨s, .anyMatch outer pool, m⟩ →
        (outer.apart.anyMatch s pool m).1 = (outer.anyMatch s pool m).1) := by
  have hget : Registry.standard.get? "has" = some (.factory hasRecipe) := by
    with_unfolding_all rfl
  obtain ⟨hplain, A, N, m, rfl, hunnamed, hfits, -, hsound⟩ := makes_of_compile hnew hw hcompiled
    hdepth hget (rfl : _ = Recipe.compile text fun c => .ready (.test (.has c))) hhas hlt
  obtain ⟨selector, rfl, hselector⟩ := Matcher.eq_has_of_unnamed hunnamed
  refine ⟨selector, rfl, fun {w'} hproceeds hlt' => ?_⟩
  obtain ⟨A', N', hgrows, hsound'⟩ := hsound.proceeds_star hproceeds hlt'
  refine ⟨fun {w₂ p} hunaided {n} helem hcount => ?_, fun hreaches => ?_, fun hreaches => ?_⟩
  · refine ⟨_, hunaided.select_eq_scan hplain helem hcount, fun {context m} hvisits => ?_⟩
    rw [hsound'.has_eq_scan hlt' hvisits (Compiled.Fits.mono hgrows.keeps selector hfits)
      (by simpa using helem), hselector, Host.scan_unnamed]
    simp
  · obtain ⟨hforest, _, helem, houter, hvalid⟩ := hsound'.ready_of_reaches hlt' hreaches
    exact Compiled.execute_apart houter hforest helem hvalid
  · obtain ⟨hforest, _, helem, houter, hvalid⟩ := hsound'.ready_of_reaches hlt' hreaches
    exact Compiled.anyMatch_apart houter hforest helem hvalid

end

section Sample

attribute [local instance] PatternLibrary.standard

/-- What the text `+ li` compiles to. -/
def nextItem : Compiled :=
  .mk ⟨"+ li", [[⟨"+ ", .combinator .adjacent⟩, ⟨"li", .tag "li"⟩]]⟩
    (some (.all [.check fun s n => s.leads .adjacent n, .check fun s n => s.hasTag "li" n])) []

def nestedEngine : Engine := (Engine.compile "+ li" groupWorld.engine).2

def hasEngine : Engine := (makeMatcher 5 (.pseudo ⟨"has", some "+ li", false⟩) nestedEngine).2

def followedClause : Clause :=
  [⟨"li", .tag "li"⟩, ⟨":has(+ li)", .pseudo ⟨"has", some "+ li", false⟩⟩]

def followedTests : List Test := [.check fun s n => s.hasTag "li" n, .has nextItem]

def outerEngine : Engine := (compileClause 12 followedClause hasEngine).2

/-- A world with a selector that asks the nested query. -/
def outerWorld : World :=
  { groupWorld with engine := hasEngine }.handOut followedClause (.inl (.all followedTests))
    outerEngine

lemma proceeds_outerWorld :
    Relation.ReflTransGen Proceeds { groupWorld with engine := hasEngine } outerWorld := by
  have hparse : SelectorList.parse "li:has(+ li)" = .ok ⟨"li:has(+ li)", [followedClause]⟩ := by
    with_unfolding_all rfl
  have hmade : compileClause 12 followedClause hasEngine =
      (.ok (.inl (.all followedTests)), outerEngine) :=
    Prod.ext (by with_unfolding_all rfl) rfl
  exact .single (.goes (.clause hparse (by simp) (by decide) hmade))

def outerScope : Scope := groupPage.host.scope (some 0)

def outerMemo : Memo := (Engine.beginQuery groupPage.host 0 outerEngine).2.memo

lemma outer_opens :
    outerWorld.Opens ⟨outerScope,
      .execute (.ofClause followedClause (.inl (.all followedTests))) [2, 3], outerMemo⟩ := by
  have hbegin : Engine.beginQuery groupPage.host 0 outerEngine =
      (.ok (groupPage.host.adapterAt 0), (Engine.beginQuery groupPage.host 0 outerEngine).2) :=
    Prod.ext (by with_unfolding_all rfl) rfl
  have hpage : groupPage ∈ outerWorld.pages := List.get_mem _ _
  have hissued : .ofClause followedClause (.inl (.all followedTests)) ∈ outerWorld.issued :=
    List.mem_append_right _ List.mem_cons_self
  have helem : ∀ n ∈ [2, 3], groupPage.document.isElement n = true := by
    with_unfolding_all decide
  exact .execute (some 0) hpage hissued hbegin helem

/-- The nested query is asked from the first item, in the middle of the outer one. -/
theorem outer_reaches :
    outerWorld.Reaches ⟨outerScope, .eval (.has nextItem) 2, outerMemo.bump⟩ := by
  have hitem : Moment.ComesTo
      ⟨outerScope, .execute (.ofClause followedClause (.inl (.all followedTests))) [2, 3],
        outerMemo⟩
      ⟨outerScope, .eval (.all followedTests) 2, outerMemo.bump⟩ :=
    (Relation.ReflTransGen.single .executeTest).tail .filterFirst
  exact ⟨_, outer_opens, ((hitem.tail .all).tail .allRest).tail (.allFirst rfl)⟩

lemma unaided_groupPage : groupWorld.Unaided groupPage :=
  .mk (rfl : Engine.new groupSettings = .ok (.fresh groupSettings))
    (proceeds_after groupRun (start (.fresh groupSettings))) rfl (List.get_mem _ _) rfl

/-- The first item is followed by another one, which the query from it selects. -/
theorem has_iff_select_sample :
    Engine.new groupSettings = .ok (.fresh groupSettings) ∧
      Engine.compile "+ li" groupWorld.engine = (.ok ⟨nextItem, 1⟩, nestedEngine) ∧
      "+ li".length < 5 ∧
      makeMatcher 5 (.pseudo ⟨"has", some "+ li", false⟩) nestedEngine =
        (.ok (.test (.has nextItem)), hasEngine) ∧
      outerWorld.named < UInt32.size ∧ groupWorld.Unaided groupPage ∧
      (Engine.select groupPage.host "+ li" 2 groupWorld.engine).1.toOption = some [3] ∧
      ((Test.has nextItem).eval outerScope 2 outerMemo.bump).1 = true ∧
      ((Compiled.ofClause followedClause (.inl (.all followedTests))).apart.execute outerScope
        [2, 3] outerMemo).1 =
        ((Compiled.ofClause followedClause (.inl (.all followedTests))).execute outerScope [2, 3]
          outerMemo).1 := by
  have hnew : Engine.new groupSettings = .ok (.fresh groupSettings) := rfl
  have hcompiled : Engine.compile "+ li" groupWorld.engine = (.ok ⟨nextItem, 1⟩, nestedEngine) :=
    Prod.ext (by with_unfolding_all rfl) rfl
  have hhas : makeMatcher 5 (.pseudo ⟨"has", some "+ li", false⟩) nestedEngine =
      (.ok (.test (.has nextItem)), hasEngine) :=
    Prod.ext (by with_unfolding_all rfl) rfl
  have hfacts : hasEngine.caches.named < UInt32.size ∧ outerWorld.named < UInt32.size ∧
      groupPage.document.isElement 2 = true ∧
      (Engine.select groupPage.host "+ li" 2 groupWorld.engine).2.caches.named < UInt32.size ∧
      (Engine.select groupPage.host "+ li" 2 groupWorld.engine).1.toOption = some [3] := by
    decide +kernel
  obtain ⟨hhaslt, hlt, helem, hselectlt, hnext⟩ := hfacts
  obtain ⟨selector, hselector, hasked⟩ := has_iff_select hnew (proceeds_after groupRun _) hcompiled
    (by decide) hhas hhaslt
  obtain rfl := Test.has.inj (Matcher.test.inj (Except.ok.inj hselector))
  obtain ⟨hfinds, houter, -⟩ := hasked proceeds_outerWorld hlt
  obtain ⟨found, hselect, haccepts⟩ := hfinds unaided_groupPage helem hselectlt
  have hfound : found ≠ [] := by
    rintro rfl
    rw [hselect] at hnext
    exact nomatch hnext
  have hvisits : outerWorld.Visits (groupPage.host.scope (some 0)) outerMemo.bump :=
    .within (by simp [Call.StartsAfresh]) outer_reaches
  exact ⟨hnew, hcompiled, by decide, hhas, hlt, unaided_groupPage, hnext,
    (haccepts hvisits).mpr hfound, houter ⟨_, outer_opens, .refl⟩⟩

/-- The items of a list that are no items below a division are sought when the names come again. -/
def soughtWorld : World := ((spentStart.spend 4294967294).act (.compile "ul li:not(div li)")).1

def soughtEngine : Engine :=
  (Engine.compile "ul li:not(div li)" (spentStart.spend 4294967294).engine).2

def soughtHas : Engine :=
  (makeMatcher 18 (.pseudo ⟨"has", some "ul li:not(div li)", false⟩) soughtEngine).2

/-- The caches are cleared after the matcher of `:has` was made. -/
def clearedWorld : World := { soughtWorld with engine := soughtHas.clearCaches }

lemma unaided_clearedWorld : clearedWorld.Unaided spentPage := by
  have hstart : Relation.ReflTransGen Proceeds (start (.fresh spentSettings))
      (spentStart.spend 4294967294) := by
    rw [← spentWorld_eq]
    exact proceeds_after _ _
  have hsought : (spentStart.spend 4294967294).Proceeds soughtWorld :=
    .goes (.act _ (.compile "ul li:not(div li)"))
  have hhas : soughtWorld.Proceeds { soughtWorld with engine := soughtHas } := by
    have hengine : soughtWorld.engine = soughtEngine := by
      rw [soughtWorld, act, engine_issue, soughtEngine]
    rw [soughtHas, ← hengine]
    refine @Proceeds.matcher _ soughtWorld
      ⟨"", .pseudo ⟨"has", some "ul li:not(div li)", false⟩⟩ 18 ?_
    rintro _ ⟨⟩ _ ⟨⟩
    decide
  have hclear : Proceeds { soughtWorld with engine := soughtHas } clearedWorld :=
    .goes (.act _ .clearCaches)
  have hpage : spentPage ∈ clearedWorld.pages := by
    dsimp only [clearedWorld, soughtWorld, act]
    rw [pages_issue]
    exact spentPage_mem _
  exact .mk (rfl : Engine.new spentSettings = .ok (.fresh spentSettings))
    (((hstart.tail hsought).tail hhas).tail hclear) rfl hpage rfl

/-- Whether a matcher of `:has` refuses the list. -/
def refusesList : Matcher → Bool
  | .test (.has selector) =>
    !((Test.has selector).eval (spentPage.host.scope (some 0)) 1 soughtHas.memo).1
  | _ => false

lemma exists_refusing : ∃ selector,
    makeMatcher 18 (.pseudo ⟨"has", some "ul li:not(div li)", false⟩) soughtEngine =
        (.ok (.test (.has selector)), soughtHas) ∧
      ((Test.has selector).eval (spentPage.host.scope (some 0)) 1 soughtHas.memo).1 = false := by
  obtain ⟨matcher, hmade, hrefuses⟩ := exists_ok_of_any (by decide +kernel :
    (makeMatcher 18 (.pseudo ⟨"has", some "ul li:not(div li)", false⟩)
      soughtEngine).1.toOption.any refusesList = true)
  match matcher, hmade, hrefuses with
  | .test (.has selector), hmade, hrefuses =>
    exact ⟨selector, hmade, by simpa [refusesList] using hrefuses⟩

/-- When names come again, the matcher of `:has` may refuse an element from which the query for its
argument selects something. -/
theorem has_ne_select_spent :
    Engine.new spentSettings = .ok (.fresh spentSettings) ∧
      Relation.ReflTransGen Proceeds (start (.fresh spentSettings)) spentWorld ∧
      (∃ c, Engine.compile "ul li:not(div li)" spentWorld.engine = (.ok c, soughtEngine)) ∧
      "ul li:not(div li)".length < 18 ∧
      World.Visits { spentWorld with engine := soughtHas } (spentPage.host.scope (some 0))
        soughtHas.memo ∧
      (∃ selector,
        makeMatcher 18 (.pseudo ⟨"has", some "ul li:not(div li)", false⟩) soughtEngine =
            (.ok (.test (.has selector)), soughtHas) ∧
          ((Test.has selector).eval (spentPage.host.scope (some 0)) 1 soughtHas.memo).1 =
            false) ∧
      clearedWorld.Unaided spentPage ∧ spentPage.document.isElement 1 = true ∧
      (Engine.select spentPage.host "ul li:not(div li)" 1 clearedWorld.engine).1.toOption =
        some [2, 3] := by
  obtain ⟨hcompiles, hselect⟩ : (Engine.compile "ul li:not(div li)"
        (spentStart.spend 4294967294).engine).1.toOption.any (fun _ => true) = true ∧
      (Engine.select spentPage.host "ul li:not(div li)" 1 clearedWorld.engine).1.toOption =
        some [2, 3] := by
    decide +kernel
  have hcompiled : ∃ c, Engine.compile "ul li:not(div li)" spentWorld.engine =
      (.ok c, soughtEngine) := by
    rw [spentWorld_eq]
    obtain ⟨c, hc, -⟩ := exists_ok_of_any hcompiles
    exact ⟨c, hc⟩
  exact ⟨rfl, proceeds_after _ _, hcompiled, by decide,
    .between (Document.isForest_sample false), exists_refusing, unaided_clearedWorld, rfl, hselect⟩

end Sample

end World

end TreeQuery
