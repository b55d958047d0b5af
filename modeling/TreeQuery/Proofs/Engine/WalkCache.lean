import TreeQuery.Proofs.Compile.Upkeep
import TreeQuery.Proofs.Tree.Orderly
import TreeQuery.Proofs.Engine.World
import TreeQuery.Proofs.Matching.Moments

/-!
# Engines with and without remembered walks

Whether an engine keeps the outcomes of walks, how large its tables may grow and in which generation
it starts does not show in a reply. Where a walk takes an outcome from an element that it comes by,
it would find the same outcome by walking on.
-/

namespace TreeQuery

namespace World

section

variable [PatternLibrary]

/-- Whether an engine starts to run a selector at a moment, over any elements of a page. It runs
selectors that it has handed out; what a query compiles by itself is handed out before the query. -/
inductive Opens (w : World) : Moment → Prop where
  | execute {p : HookedPage} {c : Compiled} {n : NodeId} {adapter : Adapter} {e : Engine}
      (context : Option NodeId) {pool : List NodeId} : p ∈ w.pages → c ∈ w.issued →
      Engine.beginQuery p.host n w.engine = (.ok adapter, e) →
      (∀ k ∈ pool, p.document.isElement k = true) →
      w.Opens ⟨⟨p.host, context, adapter.xml⟩, .execute c pool, e.memo⟩
  | anyMatch {p : HookedPage} {c : Compiled} {n : NodeId} {adapter : Adapter} {e : Engine}
      (context : Option NodeId) {pool : List NodeId} : p ∈ w.pages → c ∈ w.issued →
      Engine.beginQuery p.host n w.engine = (.ok adapter, e) →
      (∀ k ∈ pool, p.document.isElement k = true) →
      w.Opens ⟨⟨p.host, context, adapter.xml⟩, .anyMatch c pool, e.memo⟩

/-- Whether a moment occurs when an engine runs a selector. -/
def Reaches (w : World) (moment : Moment) : Prop :=
  ∃ first, w.Opens first ∧ first.ComesTo moment

variable {A A' : Adverts} {N N' : Naming} {settings settings' : Settings} {w w' : World}
  {e : Engine}

lemma Sound.ready_of_opens (hw : w.Sound A N settings) (hlt : w.named < UInt32.size)
    {moment : Moment} (h : w.Opens moment) : moment.Ready N := by
  have hbegin : ∀ {p : HookedPage} {n : NodeId} {adapter : Adapter} {e : Engine}, p ∈ w.pages →
      Engine.beginQuery p.host n w.engine = (.ok adapter, e) → e.memo.Valid := by
    intro p n adapter e hp hbegin
    have hnamed : (Engine.beginQuery p.host n w.engine).2.caches.named < UInt32.size := by
      rw [Engine.caches_beginQuery]
      exact hlt
    obtain ⟨_, _, hsound, -⟩ := Engine.beginQuery_follows hw.engine (hw.host hp).2 n hnamed
    rw [hbegin] at hsound
    exact hsound.memo
  cases h with
  | @execute p c n adapter e context pool hp hc hstart helem
  | @anyMatch p c n adapter e context pool hp hc hstart helem =>
    exact ⟨(hw.host hp).1, pool, by simpa [Scope.document] using helem, hw.issued c hc,
      hbegin hp hstart⟩

lemma Sound.ready_of_reaches (hw : w.Sound A N settings) (hlt : w.named < UInt32.size)
    {moment : Moment} (h : w.Reaches moment) : moment.Ready N := by
  obtain ⟨first, hopens, hcomes⟩ := h
  exact hcomes.ready (hw.ready_of_opens hlt hopens)

/-- Whether two worlds look the same but for their engines. -/
structure Alike (w w' : World) : Prop where
  pages : w'.pages = w.pages
  identity : w'.identity = w.identity
  issued : w'.issued.map Compiled.unnamed = w.issued.map Compiled.unnamed

lemma Alike.expected (h : w.Alike w') (x : ExecutionSettings) (event : Event) :
    w'.expected x event = w.expected x event := by
  cases event with
  | ask page query => rw [World.expected, World.expected, h.pages]
  | selectCompiled page selector context =>
    have hc : w'.issued[selector]?.map Compiled.unnamed =
        w.issued[selector]?.map Compiled.unnamed := by
      rw [← List.getElem?_map, ← List.getElem?_map, h.issued]
    rw [World.expected, World.expected, h.pages]
    cases w.pages[page]? with
    | none => rfl
    | some p =>
      cases hw : w.issued[selector]? with
      | none =>
        cases hw' : w'.issued[selector]? with
        | none => rfl
        | some c' => simp [hw, hw'] at hc
      | some c =>
        cases hw' : w'.issued[selector]? with
        | none => simp [hw, hw'] at hc
        | some c' =>
          have heq : c'.unnamed = c.unnamed := by simpa [hw, hw'] using hc
          dsimp only
          rw [← Host.answer_unnamed _ _ _ c', heq, Host.answer_unnamed]
  | _ => rfl

/-- The selectors that are handed out are what their texts compile to. -/
theorem Sound.issued_compile (hw : w.Sound A N settings) (text : String)
    (hlt : (w.act (.compile text)).1.named < UInt32.size) :
    (w.act (.compile text)).1.issued.map Compiled.unnamed =
      w.issued.map Compiled.unnamed ++ (Registry.standard.plain text).toOption.toList := by
  have hfollows := Engine.compile_follows Registry.standard_steady hw.engine text
  rw [World.act, named_issue] at hlt
  obtain ⟨_, -, -, hagree⟩ := hfollows hlt
  rw [World.act]
  rcases hout : Engine.compile text w.engine with ⟨_ | c, engine⟩
  · rw [hout] at hagree
    cases hplain : Registry.standard.plain text with
    | error fault => exact (List.append_nil _).symm
    | ok b =>
      rw [hplain] at hagree
      exact hagree.elim
  · rw [hout] at hagree
    obtain ⟨b, hplain, heq, -⟩ := hagree.of_ok
    rw [hplain, heq]
    exact List.map_append

lemma act_ask_fst (w : World) (page : Nat) (query : Query) :
    ∃ e, (w.act (.ask page query)).1 = { w with engine := e } := by
  rw [World.act]
  cases w.pages[page]? with
  | none => exact ⟨w.engine, rfl⟩
  | some p => exact ⟨_, rfl⟩

lemma pages_act_ask (w : World) (page : Nat) (query : Query) :
    (w.act (.ask page query)).1.pages = w.pages := by
  obtain ⟨_, heq⟩ := act_ask_fst w page query
  rw [heq]

lemma act_selectCompiled_fst (w : World) (page selector : Nat) (context : NodeId) :
    ∃ e, (w.act (.selectCompiled page selector context)).1 = { w with engine := e } := by
  rw [World.act]
  cases w.pages[page]? with
  | none => exact ⟨w.engine, rfl⟩
  | some p =>
    cases w.issued[selector]? with
    | none => exact ⟨w.engine, rfl⟩
    | some c => exact ⟨_, rfl⟩

lemma Alike.act (h : w.Alike w') (hw : w.Sound A N settings) (hw' : w'.Sound A' N' settings')
    (event : Event) (hlt : (w.act event).1.named < UInt32.size)
    (hlt' : (w'.act event).1.named < UInt32.size) : (w.act event).1.Alike (w'.act event).1 := by
  have hasked : ∀ e e' : Engine, Alike { w with engine := e } { w' with engine := e' } :=
    fun _ _ => ⟨h.pages, h.identity, h.issued⟩
  have hrenew : ∀ page change, (w.renew page change).Alike (w'.renew page change) := by
    intro page change
    refine ⟨?_, ?_, h.issued⟩
    · rw [renew, renew, h.pages]
    · rw [renew, renew, h.identity]
  cases event with
  | create xml =>
    refine ⟨?_, ?_, h.issued⟩
    · rw [World.act, World.act, h.pages, h.identity]
    · rw [World.act, World.act, h.identity]
  | clone page =>
    refine ⟨?_, h.identity, h.issued⟩
    rw [World.act, World.act, h.pages]
  | mutate page nodes forest =>
    refine ⟨?_, h.identity, h.issued⟩
    rw [World.act, World.act, h.pages]
  | withFeatures page features =>
    rw [World.act, World.act, h.identity]
    exact hrenew page _
  | withHook page hook =>
    rw [World.act, World.act, h.identity]
    exact hrenew page _
  | ask page query =>
    obtain ⟨_, heq⟩ := act_ask_fst w page query
    obtain ⟨_, heq'⟩ := act_ask_fst w' page query
    rw [heq, heq']
    exact hasked _ _
  | selectCompiled page selector context =>
    obtain ⟨_, heq⟩ := act_selectCompiled_fst w page selector context
    obtain ⟨_, heq'⟩ := act_selectCompiled_fst w' page selector context
    rw [heq, heq']
    exact hasked _ _
  | compile text =>
    refine ⟨?_, ?_, ?_⟩
    · rw [World.act, World.act, pages_issue, pages_issue, h.pages]
    · rw [World.act, World.act, identity_issue, identity_issue, h.identity]
    · rw [hw.issued_compile text hlt, hw'.issued_compile text hlt', h.issued]
  | tokenize text => exact hasked _ _
  | clearCaches => exact hasked _ _

/-- Worlds that look the same get the same replies, if all that is still to come is answered in the
same way under their settings. -/
theorem Alike.replies_of_invariant {I : World → List Event → Prop}
    (hkeeps : ∀ {w event rest}, I w (event :: rest) → I (w.act event).1 rest)
    (hsame : ∀ {A N w event rest}, I w (event :: rest) → w.Sound A N settings →
      (w.act event).1.named < UInt32.size →
      w.expected settings'.execution event = w.expected settings.execution event)
    (events : List Event) (hI : I w events) (h : w.Alike w') (hw : w.Sound A N settings)
    (hw' : w'.Sound A' N' settings') (hlt : (w.after events).named < UInt32.size)
    (hlt' : (w'.after events).named < UInt32.size) : w'.replies events = w.replies events := by
  induction events generalizing w w' A A' N N' with
  | nil => rfl
  | cons event rest ih =>
    have hnext := Nat.lt_of_le_of_lt (named_le_after rest _) hlt
    have hnext' := Nat.lt_of_le_of_lt (named_le_after rest _) hlt'
    obtain ⟨_, _, -, hsound, hreply⟩ := hw.act event hnext
    obtain ⟨_, _, -, hsound', hreply'⟩ := hw'.act event hnext'
    rw [World.replies, World.replies, hreply, hreply', h.expected, hsame hI hw hnext,
      ih (hkeeps hI) (h.act hw hw' event hnext hnext') hsound hsound' hlt hlt']

/-- Worlds that look the same get the same replies, if their settings take the same shortcuts. -/
theorem Alike.replies (hsame : ∀ (w : World) event,
      w.expected settings'.execution event = w.expected settings.execution event)
    (events : List Event) (h : w.Alike w') (hw : w.Sound A N settings)
    (hw' : w'.Sound A' N' settings') (hlt : (w.after events).named < UInt32.size)
    (hlt' : (w'.after events).named < UInt32.size) : w'.replies events = w.replies events :=
  replies_of_invariant (I := fun _ _ => True) (fun _ => trivial) (fun _ _ _ => hsame _ _) events
    trivial h hw hw' hlt hlt'

/-- Engines that differ in what they keep of walks, and in the generation in which they start, give
the same replies, and an outcome that is taken from an element is what walking on would find. -/
theorem replies_of_walkCache {walkCache : Bool} {limit : Nat} {e e' : Engine}
    (hnew : Engine.new settings = .ok e)
    (hnew' : Engine.new ((settings.withWalkCache walkCache).withWalkTableLimit limit) = .ok e')
    (generation generation' : UInt32) (events : List Event)
    (hlt : ((start (e.startAt generation)).after events).named < UInt32.size)
    (hlt' : ((start (e'.startAt generation')).after events).named < UInt32.size) :
    (start (e'.startAt generation')).replies events = (start (e.startAt generation)).replies events ∧
      ∀ {s c id left cell bound n m found},
        ((start (e.startAt generation)).after events).Reaches
          ⟨s, .walk c id left (some cell) (bound + 1) (some n), m⟩ →
        m.outcome? n c.direction id = some found →
        found = (Run.walk s.document c.direction id (left.eval s) none (bound + 1) (some n)
          { m with walkCache := false }).1 := by
  have hsound := sound_start (Engine.sound_startAt hnew (fun _ => none) generation)
  have hsound' := sound_start (Engine.sound_startAt hnew' (fun _ => none) generation')
  have hsame : ∀ (w : World) event, w.expected
      ((settings.withWalkCache walkCache).withWalkTableLimit limit).execution event =
      w.expected settings.execution event := by
    intro w event
    cases event <;> rfl
  have halike : (start (e.startAt generation)).Alike (start (e'.startAt generation')) :=
    ⟨rfl, rfl, rfl⟩
  refine ⟨halike.replies hsame events hsound hsound' hlt hlt', ?_⟩
  intro s c id left cell bound n m found ⟨first, hopens, hcomes⟩ hfound
  obtain ⟨A, N, -, hafter⟩ := hsound.after events hlt
  exact (hcomes.ready (hafter.ready_of_opens hlt hopens)).outcome_eq_walk hfound

lemma issued_subset_act (w : World) (event : Event) : w.issued ⊆ (w.act event).1.issued := by
  cases event with
  | ask page query =>
    obtain ⟨_, heq⟩ := act_ask_fst w page query
    rw [heq]
    exact List.Subset.refl _
  | selectCompiled page selector context =>
    obtain ⟨_, heq⟩ := act_selectCompiled_fst w page selector context
    rw [heq]
    exact List.Subset.refl _
  | compile text =>
    rw [World.act]
    rcases Engine.compile text w.engine with ⟨_ | _, _⟩
    · exact List.Subset.refl _
    · exact List.subset_append_left _ _
  | _ => exact List.Subset.refl _

lemma issued_subset_after (events : List Event) (w : World) :
    w.issued ⊆ (w.after events).issued := by
  induction events generalizing w with
  | nil => exact List.Subset.refl _
  | cons event rest ih => exact List.Subset.trans (issued_subset_act w event) (ih _)

end

section Sample

attribute [local instance] PatternLibrary.standard

/-- An engine whose generations soon start again from one. -/
def walksStart : World := start ((Engine.fresh .standard).startAt 4294967294)

/-- An engine that keeps no walks. -/
def forgetfulStart : World :=
  start ((Engine.fresh ((Settings.standard.withWalkCache false).withWalkTableLimit 7)).startAt 5)

/-- Queries about the items of a list and their siblings. -/
def walksRun : List Event :=
  [.compile "ul li", .create false, .withFeatures 0 .none,
    .mutate 0 Document.sample.nodes Document.isForest_sample,
    .ask 0 (.select "ul:has(li ~ li) li:not(:first), .b" 0), .ask 0 (.test "ul li" 3)]

def walksWorld : World := walksStart.after walksRun

lemma zero_lt_pages_walksWorld : 0 < walksWorld.pages.length := by
  dsimp only [walksWorld, walksRun, after]
  rw [pages_act_ask, pages_act_ask]
  dsimp only [act, renew]
  rw [pages_issue]
  exact Nat.one_pos

def walksPage : HookedPage := walksWorld.pages.get ⟨0, zero_lt_pages_walksWorld⟩

def walksScope : Scope := ⟨walksPage.host, some 0, false⟩

def walksLeft : Test := .check fun s n => s.hasTag "ul" n

def walksTests : List Test := [.related .descendant 2 walksLeft, .check fun s n => s.hasTag "li" n]

def walksSelector : Compiled :=
  .mk ⟨"ul li", [[⟨"ul", .tag "ul"⟩, ⟨" ", .combinator .descendant⟩, ⟨"li", .tag "li"⟩]]⟩
    (some (.all walksTests)) []

lemma walksSelector_issued : walksSelector ∈ walksWorld.issued := by
  have hcompiled : walksSelector ∈ (walksStart.act (.compile "ul li")).1.issued :=
    List.mem_of_getElem? (i := 0) (by with_unfolding_all rfl)
  rw [walksWorld, walksRun, after]
  exact issued_subset_after _ _ hcompiled

def walksMemo : Memo := (Engine.beginQuery walksPage.host 0 walksWorld.engine).2.memo

/-- The memo when the selector comes to the second item. -/
def walksNext : Memo := ((Test.all walksTests).eval walksScope 2 walksMemo.bump).2

lemma walks_facts :
    (Engine.beginQuery walksPage.host 0 walksWorld.engine).1.toOption =
        some (walksPage.host.adapterAt 0) ∧
      walksPage.host.xml = false ∧ (∀ k ∈ [2, 3], walksPage.document.isElement k = true) ∧
      walksScope.document.size = 3 + 1 ∧ walksScope.document.stepTo .parent 3 = some 1 ∧
      (evalAll [.check fun s n => s.hasTag "li" n] walksScope 3 walksNext).1 = true ∧
      walksNext.walkCache = true ∧ walksNext.openCell.2.outcome? 1 .parent 2 = some true ∧
      walksWorld.named < UInt32.size := by
  decide +kernel

lemma walks_opens :
    walksWorld.Opens ⟨walksScope, .execute walksSelector [2, 3], walksMemo⟩ := by
  obtain ⟨hadapter, hxml, helem, -⟩ := walks_facts
  have hbegin : Engine.beginQuery walksPage.host 0 walksWorld.engine =
      (.ok (walksPage.host.adapterAt 0), (Engine.beginQuery walksPage.host 0 walksWorld.engine).2) :=
    Prod.ext (Fallible.eq_ok_of_toOption hadapter) rfl
  have hopens := Opens.execute (some 0) (List.get_mem _ _) walksSelector_issued hbegin helem
  rwa [Host.xml_adapterAt, hxml] at hopens

/-- The walk from the second item comes to the list, of which the first walk knows the outcome. -/
theorem walks_reaches : ∃ cell m,
    walksWorld.Reaches ⟨walksScope, .walk .descendant 2 walksLeft (some cell) (3 + 1) (some 1), m⟩ ∧
      m.outcome? 1 .parent 2 = some true := by
  obtain ⟨-, -, -, hsize, hstep, hrest, hcache, hknown, -⟩ := walks_facts
  have hitem : Moment.ComesTo ⟨walksScope, .execute walksSelector [2, 3], walksMemo⟩
      ⟨walksScope, .eval (.all walksTests) 3, walksNext⟩ :=
    ((Relation.ReflTransGen.single .executeTest).tail .filterRest).tail .filterFirst
  have hrelated : Moment.ComesTo ⟨walksScope, .eval (.all walksTests) 3, walksNext⟩
      ⟨walksScope, .eval (.related .descendant 2 walksLeft) 3, walksNext⟩ :=
    (Relation.ReflTransGen.single .all).tail (.allFirst hrest)
  have hwalk : Moment.Leads ⟨walksScope, .eval (.related .descendant 2 walksLeft) 3, walksNext⟩
      ⟨walksScope, .walk .descendant 2 walksLeft (some walksNext.openCell.1)
        walksScope.document.size (walksScope.document.stepTo .parent 3), walksNext.openCell.2⟩ :=
    .remembered rfl hcache
  rw [hsize, hstep] at hwalk
  exact ⟨_, _, ⟨_, walks_opens, (hitem.trans hrelated).tail hwalk⟩, hknown⟩

theorem replies_of_walkCache_sample :
    Engine.new .standard = .ok (.fresh .standard) ∧ walksWorld.named < UInt32.size ∧
      (forgetfulStart.after walksRun).named < UInt32.size ∧
      forgetfulStart.replies walksRun = walksStart.replies walksRun ∧
      ∃ cell m,
        walksWorld.Reaches
          ⟨walksScope, .walk .descendant 2 walksLeft (some cell) (3 + 1) (some 1), m⟩ ∧
        m.outcome? 1 .parent 2 = some true ∧
        true = (Run.walk walksScope.document .parent 2 (walksLeft.eval walksScope) none (3 + 1)
          (some 1) { m with walkCache := false }).1 := by
  obtain ⟨-, -, -, -, -, -, -, -, hlt⟩ := walks_facts
  have hlt' : (forgetfulStart.after walksRun).named < UInt32.size := by decide +kernel
  obtain ⟨hreplies, hwalks⟩ := replies_of_walkCache Engine.new_standard
    (by rfl : Engine.new ((Settings.standard.withWalkCache false).withWalkTableLimit 7) = .ok _)
    4294967294 5 walksRun hlt hlt'
  obtain ⟨cell, m, hreaches, hfound⟩ := walks_reaches
  exact ⟨Engine.new_standard, hlt, hlt', hreplies, cell, m, hreaches, hfound,
    hwalks hreaches hfound⟩

end Sample

end World

end TreeQuery
