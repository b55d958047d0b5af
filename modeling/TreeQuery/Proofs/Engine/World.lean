import TreeQuery.Proofs.Tree.Pages
import TreeQuery.Proofs.Engine.Operations

/-!
# Engines in use

An engine is asked about pages that come and change while it is in use. Pages are made under new
identities, clones share the identity of their page, and a page keeps its forest shape when it
changes. Whatever has happened, every answer is the one that needs no caches.
-/

namespace TreeQuery

inductive Query where
  | select (text : String) (context : NodeId)
  | filter (text : String) (candidates : List NodeId)
  | test (text : String) (n : NodeId)

inductive Answer where
  | nodes (found : List NodeId)
  | verdict (passed : Bool)
  deriving Repr, DecidableEq

namespace Query

def ask [PatternLibrary] (h : Host) : Query → Engine.Action Answer
  | select text context => do return .nodes (← Engine.select h text context)
  | filter text candidates => do return .nodes (← Engine.filterCandidates h text candidates)
  | test text n => do return .verdict (← Engine.matchesElement h n text)

/-- The answer without any caches. -/
def answer [PatternLibrary] (h : Host) (r : Registry) (x : ExecutionSettings) :
    Query → Except SelectorError Answer
  | select text context => (h.select r x text context).map .nodes
  | filter text candidates => (h.filterCandidates r text candidates).map .nodes
  | test text n => (h.matchesElement r n text).map .verdict

end Query

abbrev Hook := Page → NodeId → String → Except SelectorError (List NodeId)

/-- What happens to an engine and to the pages that it is asked about, which are named by their
places. -/
inductive Event where
  | create (xml : Bool)
  | clone (page : Nat)
  | mutate (page : Nat) (nodes : Array Node) (forest : ∀ xml, Document.IsForest ⟨nodes, xml⟩)
  | withFeatures (page : Nat) (features : Features)
  | withHook (page : Nat) (hook : Hook)
  | ask (page : Nat) (query : Query)
  | selectCompiled (page selector : Nat) (context : NodeId)
  | compile (text : String)
  | tokenize (text : String)
  | clearCaches

structure World where
  engine : Engine
  pages : List HookedPage
  identity : Nat
  issued : List Compiled

namespace World

/-- An engine that was asked nothing yet. -/
def start (e : Engine) : World := ⟨e, [], 0, []⟩

/-- The answer to what was asked, if anything was. -/
abbrev Reply := Option (Except SelectorError Answer)

def issue (w : World) : Except SelectorError (Issued Compiled) × Engine → World
  | (.ok selector, engine) => { w with engine, issued := w.issued ++ [selector.value] }
  | (.error _, engine) => { w with engine }

lemma engine_issue (w : World) (out : Except SelectorError (Issued Compiled) × Engine) :
    (w.issue out).engine = out.2 := by
  obtain ⟨_ | selector, engine⟩ := out <;> rfl

lemma pages_issue (w : World) (out : Except SelectorError (Issued Compiled) × Engine) :
    (w.issue out).pages = w.pages := by
  obtain ⟨_ | selector, engine⟩ := out <;> rfl

lemma identity_issue (w : World) (out : Except SelectorError (Issued Compiled) × Engine) :
    (w.issue out).identity = w.identity := by
  obtain ⟨_ | selector, engine⟩ := out <;> rfl

/-- Changes a page under a new identity. -/
def renew (w : World) (page : Nat) (change : HookedPage → HookedPage) : World :=
  { w with pages := w.pages.modify page change, identity := w.identity + 1 }

def named (w : World) : Nat := w.engine.caches.named

lemma named_issue (w : World) (out : Except SelectorError (Issued Compiled) × Engine) :
    (w.issue out).named = out.2.caches.named := by
  rw [named, engine_issue]

variable [PatternLibrary]

/-- What an event leaves behind, and the reply to it. -/
def act (w : World) : Event → World × Reply
  | .create xml =>
    ({ w with pages := w.pages ++ [.empty w.identity xml], identity := w.identity + 1 }, none)
  | .clone page => ({ w with pages := w.pages ++ w.pages[page]?.toList }, none)
  | .mutate page nodes _ =>
    ({ w with
      pages := w.pages.modify page fun p => { p with document := ⟨nodes, p.document.xml⟩ } }, none)
  | .withFeatures page features => (w.renew page (·.withFeatures w.identity features), none)
  | .withHook page hook => (w.renew page (·.withHook w.identity hook), none)
  | .ask page query =>
    match w.pages[page]? with
    | some p =>
      let (answer, engine) := query.ask p.host w.engine
      ({ w with engine }, some answer)
    | none => (w, none)
  | .selectCompiled page selector context =>
    match w.pages[page]?, w.issued[selector]? with
    | some p, some c =>
      let (found, engine) := Engine.selectCompiled p.host c context w.engine
      ({ w with engine }, some (found.map .nodes))
    | _, _ => (w, none)
  | .compile text => (w.issue (Engine.compile text w.engine), none)
  | .tokenize text => ({ w with engine := (Engine.tokenize text w.engine).2 }, none)
  | .clearCaches => ({ w with engine := w.engine.clearCaches }, none)

def after (w : World) : List Event → World
  | [] => w
  | event :: rest => (w.act event).1.after rest

@[simp] lemma after_append (w : World) (events later : List Event) :
    w.after (events ++ later) = (w.after events).after later := by
  induction events generalizing w with
  | nil => rfl
  | cons event rest ih => exact ih _

def replies (w : World) : List Event → List Reply
  | [] => []
  | event :: rest => (w.act event).2 :: (w.act event).1.replies rest

/-- What holds of a world whatever has happened in it. -/
structure Sound (A : Adverts) (N : Naming) (settings : Settings) (w : World) : Prop where
  engine : w.engine.Sound A .standard settings N
  forests : ∀ p ∈ w.pages, p.document.IsForest
  known : ∀ p ∈ w.pages, A p.identity = some (p.features, p.document.xml)
  fresh : ∀ identity, w.identity ≤ identity → A identity = none
  issued : ∀ c ∈ w.issued, c.Fits N

/-- The reply to an event without any caches. -/
def expected (w : World) (x : ExecutionSettings) : Event → Reply
  | .ask page query => w.pages[page]?.map fun p => query.answer p.host .standard x
  | .selectCompiled page selector context =>
    match w.pages[page]?, w.issued[selector]? with
    | some p, some c =>
      some ((if p.document.isQueryRoot context then p.host.answer .standard x c context
        else .ok []).map .nodes)
    | _, _ => none
  | _ => none

end World

namespace HookedPage

/-- What the indexes of a page find under a context stands below it. -/
theorem mem_descendantElements_of_fetch {p : HookedPage} {seed : Seed} {context n : NodeId}
    (hn : n ∈ seed.fetch p.host context) : n ∈ p.document.descendantElements context := by
  have hbelow : ∀ {keep}, n ∈ p.document.elementsWhere context keep →
      n ∈ p.document.descendantElements context := fun hn => (List.mem_filter.mp hn).1
  have hmem := Host.mem_uniqueSort.mp hn
  cases seed with
  | id name =>
    rw [elementsById_host] at hmem
    exact hbelow (List.mem_filter.mp hmem).1
  | tag name =>
    rw [elementsByTag_host] at hmem
    dsimp only at hmem
    unfold Document.elementsByTag at hmem
    split at hmem
    · exact hmem
    · exact hbelow hmem
  | className word =>
    rw [elementsByClass_host] at hmem
    exact hbelow hmem

lemma findsElements_host (p : HookedPage) : p.host.FindsElements := by
  intro seed context _ n hn
  rw [document_host]
  exact Document.isElement_of_descendantElements (mem_descendantElements_of_fetch hn)

end HookedPage

namespace Ledger

lemma Agree.of_ok {α β : Type} {rel : α → β → Prop} {a : α} {y : Except SelectorError β}
    (h : Agree rel (.ok a) y) : ∃ b, y = .ok b ∧ rel a b := by
  cases y with
  | error e => exact h.elim
  | ok b => exact ⟨b, rfl, h⟩

lemma Agree.of_ok_right {α β : Type} {rel : α → β → Prop} {x : Except SelectorError α}
    {b : β} (h : Agree rel x (.ok b)) : ∃ a, x = .ok a ∧ rel a b := by
  cases x with
  | error e => exact h.elim
  | ok a => exact ⟨a, rfl, h⟩

lemma Agree.of_error_right {α β : Type} {rel : α → β → Prop} {x : Except SelectorError α}
    {fault : SelectorError} (h : Agree rel x (.error fault)) : x = .error fault := by
  cases x with
  | error e => exact congrArg Except.error h
  | ok a => exact h.elim

lemma Agree.eq {α : Type} {x y : Except SelectorError α} (h : Agree (fun a b => a = b) x y) :
    x = y := by
  cases x <;> cases y
  · exact congrArg Except.error h
  · exact h.elim
  · exact h.elim
  · exact congrArg Except.ok h

end Ledger

namespace Engine

variable {A A' : Adverts} {N : Naming} {r : Registry} {settings : Settings} {e : Engine}

/-- A new engine for settings that are valid. -/
def fresh (settings : Settings) : Engine :=
  ⟨settings, .standard, .empty settings.cache,
    .empty settings.execution.walkCache settings.execution.walkTableLimit, none, .zero⟩

lemma eq_fresh_of_new (h : Engine.new settings = .ok e) : e = fresh settings := by
  unfold Engine.new Settings.checked at h
  cases hfault : settings.fault? with
  | some fault => simp [hfault, bind, Except.bind] at h
  | none =>
    simp only [hfault, bind, Except.bind] at h
    exact (Except.ok.inj h).symm

lemma new_standard : Engine.new .standard = .ok (fresh .standard) :=
  rfl

def startAt (e : Engine) (generation : UInt32) : Engine :=
  { e with memo := { e.memo with generation } }

variable [PatternLibrary]

lemma Sound.advert (he : e.Sound A r settings N)
    (hA : ∀ identity known, A identity = some known → A' identity = some known) :
    e.Sound A' r settings N :=
  { he with adapter := fun a ha => hA _ _ (he.adapter a ha) }

lemma sound_startAt (h : Engine.new settings = .ok e) (A : Adverts) (generation : UInt32) :
    (e.startAt generation).Sound A .standard settings fun _ => none := by
  obtain rfl := eq_fresh_of_new h
  exact
    { registry := rfl
      settings := rfl
      caches := CompileCaches.coherent_empty _ _
      memo := Memo.valid_of_empty rfl rfl
      forgotten := Memo.forgotten_of_empty rfl rfl
      adapter := fun _ ha => nomatch ha }

lemma sound_new (h : Engine.new settings = .ok e) (A : Adverts) :
    e.Sound A .standard settings fun _ => none :=
  sound_startAt h A e.memo.generation

lemma ask_adds (h : Host) (query : Query) : (ledger A r settings).Adds (query.ask h) := by
  cases query with
  | select text context => exact (select_adds h text context).bind fun _ => .pure _
  | filter text candidates => exact (filterCandidates_adds h text candidates).bind fun _ => .pure _
  | test text n => exact (matchesElement_adds h n text).bind fun _ => .pure _

lemma ask_follows (hr : r.Steady) (he : e.Sound A r settings N) {h : Host}
    (hforest : h.document.IsForest) (hfinds : h.FindsElements) (hknown : h.Known A)
    (query : Query) :
    (ledger A r settings).Follows N e (query.ask h e) (query.answer h r settings.execution)
      fun _ a b => a = b := by
  cases query with
  | select text context =>
    exact (select_follows hr he hforest hfinds hknown text context).map fun hab => congrArg _ hab
  | filter text candidates =>
    exact (filterCandidates_follows hr he hforest hknown text candidates).map
      fun hab => congrArg _ hab
  | test text n =>
    exact (matchesElement_follows hr he hforest hknown n text).map fun hab => congrArg _ hab

end Engine

lemma mem_modify {α : Type} {f : α → α} {i : Nat} {xs : List α} {x : α}
    (h : x ∈ xs.modify i f) : x ∈ xs ∨ ∃ y, xs[i]? = some y ∧ x = f y := by
  obtain ⟨j, hj⟩ := List.mem_iff_getElem?.mp h
  rw [List.getElem?_modify] at hj
  obtain ⟨y, hy, rfl⟩ := Option.map_eq_some_iff.mp hj
  split
  · rename_i heq
    exact .inr ⟨y, heq ▸ hy, rfl⟩
  · exact .inl (List.mem_of_getElem? hy)

namespace World

variable [PatternLibrary]

variable {A : Adverts} {N : Naming} {settings : Settings} {w : World} {e : Engine}

lemma sound_start (he : e.Sound (fun _ => none) .standard settings fun _ => none) :
    (start e).Sound (fun _ => none) (fun _ => none) settings where
  engine := he
  forests _ hp := by simp [start] at hp
  known _ hp := by simp [start] at hp
  fresh _ _ := rfl
  issued _ hc := by simp [start] at hc

lemma act_ask {page : Nat} {p : HookedPage} (hp : w.pages[page]? = some p) (query : Query) :
    w.act (.ask page query) =
      ({ w with engine := (query.ask p.host w.engine).2 },
        some (query.ask p.host w.engine).1) := by
  rw [act, hp]
  rfl

lemma act_selectCompiled {page selector : Nat} {p : HookedPage} {c : Compiled}
    (hp : w.pages[page]? = some p) (hc : w.issued[selector]? = some c) (context : NodeId) :
    w.act (.selectCompiled page selector context) =
      ({ w with engine := (Engine.selectCompiled p.host c context w.engine).2 },
        some ((Engine.selectCompiled p.host c context w.engine).1.map .nodes)) := by
  rw [act, hp, hc]
  rfl

lemma named_le_act (w : World) (event : Event) : w.named ≤ (w.act event).1.named := by
  let L := Engine.ledger (fun _ => none) .standard w.engine.settings
  cases event with
  | ask page query =>
    cases hp : w.pages[page]? with
    | none =>
      simp only [act, hp, Nat.le_refl]
    | some p =>
      have hadds : L.Adds (query.ask p.host) := Engine.ask_adds p.host query
      rw [act_ask hp]
      exact hadds w.engine
  | selectCompiled page selector context =>
    cases hp : w.pages[page]? with
    | none =>
      simp only [act, hp, Nat.le_refl]
    | some p =>
      cases hc : w.issued[selector]? with
      | none =>
        simp only [act, hp, hc, Nat.le_refl]
      | some c =>
        have hadds : L.Adds (Engine.selectCompiled p.host c context) :=
          Engine.selectCompiled_adds p.host c context
        rw [act_selectCompiled hp hc]
        exact hadds w.engine
  | compile text =>
    have hadds : L.Adds (Engine.compile text) := Engine.compile_adds text
    rw [act, named_issue]
    exact hadds w.engine
  | tokenize text =>
    have hadds : L.Adds (Engine.tokenize text) := Engine.tokenize_adds text
    exact hadds w.engine
  | _ => exact Nat.le_refl _

/-- What a sound world says about a page of its own. -/
theorem Sound.host (hw : w.Sound A N settings) {p : HookedPage} (hp : p ∈ w.pages) :
    p.host.document.IsForest ∧ p.host.Known A := by
  constructor
  · simpa using hw.forests p hp
  · simpa [Host.Known] using hw.known p hp

/-- What holds of an engine holds of a world. -/
theorem Sound.withEngine (hw : w.Sound A N settings) {N' : Naming} {e : Engine}
    (hgrows : N.Grows w.named N' e.caches.named) (he : e.Sound A .standard settings N') :
    ({ w with engine := e } : World).Sound A N' settings where
  engine := he
  forests := hw.forests
  known := hw.known
  fresh := hw.fresh
  issued c hc := Compiled.Fits.mono hgrows.keeps c (hw.issued c hc)

lemma Sound.issue (hw : w.Sound A N settings) {N' : Naming}
    {outcome : Except SelectorError (Issued Compiled) × Engine}
    (hgrows : N.Grows w.named N' outcome.2.caches.named)
    (he : outcome.2.Sound A .standard settings N')
    (hfits : ∀ c, outcome.1 = .ok c → c.value.Fits N') :
    (w.issue outcome).Sound A N' settings := by
  have hengine := hw.withEngine hgrows he
  rcases outcome with ⟨_ | c, engine⟩
  · exact hengine
  · refine { hengine with issued := fun c' hc' => ?_ }
    obtain hc' | hc' := List.mem_append.mp hc'
    · exact hengine.issued c' hc'
    · obtain rfl := List.mem_singleton.mp hc'
      exact hfits c rfl

/-- Pages that are new or have changed bear the next identity. -/
theorem Sound.withPages (hw : w.Sound A N settings) {pages : List HookedPage} (features : Features)
    (xml : Bool) (hpages : ∀ p ∈ pages, p ∈ w.pages ∨
      p.document.IsForest ∧ p.identity = w.identity ∧ p.features = features ∧
        p.document.xml = xml) :
    ({ w with pages, identity := w.identity + 1 } : World).Sound
      (fun identity => if identity = w.identity then some (features, xml) else A identity)
      N settings := by
  have hold : ∀ identity known, A identity = some known →
      (if identity = w.identity then some (features, xml) else A identity) = some known := by
    intro identity known hA
    rw [if_neg, hA]
    rintro rfl
    rw [hw.fresh _ (Nat.le_refl _)] at hA
    simp at hA
  exact
    { engine := hw.engine.advert hold
      forests := fun p hp => (hpages p hp).elim (hw.forests p) fun h => h.1
      known := by
        intro p hp
        obtain hp | ⟨-, hidentity, rfl, rfl⟩ := hpages p hp
        · exact hold _ _ (hw.known p hp)
        · rw [if_pos hidentity]
      fresh := by
        intro identity hle
        have hlt : w.identity < identity := hle
        rw [if_neg (Nat.ne_of_gt hlt)]
        exact hw.fresh _ (Nat.le_of_lt hlt)
      issued := hw.issued }

/-- Pages that have been there before leave everything as it was. -/
theorem Sound.withKnown (hw : w.Sound A N settings) {pages : List HookedPage}
    (hpages : ∀ p ∈ pages, p.document.IsForest ∧
      A p.identity = some (p.features, p.document.xml)) :
    ({ w with pages } : World).Sound A N settings :=
  { hw with
    forests := fun p hp => (hpages p hp).1
    known := fun p hp => (hpages p hp).2 }

lemma Sound.renew (hw : w.Sound A N settings) (page : Nat) (change : HookedPage → HookedPage)
    (hidentity : ∀ p, (change p).identity = w.identity)
    (hdocument : ∀ p, (change p).document = p.document) :
    ∃ A', (w.renew page change).Sound A' N settings := by
  cases hp : w.pages[page]? with
  | none =>
    refine ⟨_, hw.withPages .none false fun q hq => .inl ?_⟩
    obtain hq | ⟨p, hpage, -⟩ := mem_modify hq
    · exact hq
    · rw [hp] at hpage
      simp at hpage
  | some p =>
    refine ⟨_, hw.withPages (change p).features p.document.xml
      fun q hq => ?_⟩
    obtain hq | ⟨p', hpage, rfl⟩ := mem_modify hq
    · exact .inl hq
    · obtain rfl := Option.some.inj (hp.symm.trans hpage)
      refine .inr ⟨?_, hidentity p, rfl, congrArg Document.xml (hdocument p)⟩
      rw [hdocument]
      exact hw.forests p (List.mem_of_getElem? hp)

/-- Whatever happens leaves a sound world and gets the reply that needs no caches. -/
theorem Sound.act (hw : w.Sound A N settings) (event : Event)
    (hlt : (w.act event).1.named < UInt32.size) :
    ∃ A' N', N.Grows w.named N' (w.act event).1.named ∧
      (w.act event).1.Sound A' N' settings ∧
        (w.act event).2 = w.expected settings.execution event := by
  have hkeeps := Naming.Grows.refl N w.named
  have hsteady := Registry.standard_steady
  cases event with
  | create xml =>
    refine ⟨_, N, hkeeps, hw.withPages .indexed xml fun q hq => ?_, rfl⟩
    obtain hq | hq := List.mem_append.mp hq
    · exact .inl hq
    · obtain rfl := List.mem_singleton.mp hq
      exact .inr ⟨Document.isForest_empty xml, rfl, rfl, rfl⟩
  | clone page =>
    refine ⟨A, N, hkeeps, hw.withKnown fun q hq => ?_, rfl⟩
    have hq : q ∈ w.pages := by
      obtain hq | hq := List.mem_append.mp hq
      · exact hq
      · exact List.mem_of_getElem? (Option.mem_toList.mp hq)
    exact ⟨hw.forests q hq, hw.known q hq⟩
  | mutate page nodes forest =>
    refine ⟨A, N, hkeeps, hw.withKnown fun q hq => ?_, rfl⟩
    obtain hq | ⟨p, hpage, rfl⟩ := mem_modify hq
    · exact ⟨hw.forests q hq, hw.known q hq⟩
    · exact ⟨forest _, hw.known p (List.mem_of_getElem? hpage)⟩
  | withFeatures page features =>
    obtain ⟨A', hsound⟩ := hw.renew page (·.withFeatures w.identity features)
      (fun _ => rfl) fun _ => rfl
    exact ⟨A', N, hkeeps, hsound, rfl⟩
  | withHook page hook =>
    obtain ⟨A', hsound⟩ := hw.renew page (·.withHook w.identity hook)
      (fun _ => rfl) fun _ => rfl
    exact ⟨A', N, hkeeps, hsound, rfl⟩
  | ask page query =>
    cases hp : w.pages[page]? with
    | none =>
      rw [World.act, hp, expected, hp]
      exact ⟨A, N, hkeeps, hw, rfl⟩
    | some p =>
      obtain ⟨hforest, hknown⟩ := hw.host (List.mem_of_getElem? hp)
      rw [act_ask hp] at hlt ⊢
      obtain ⟨N', hgrows, hsound, hagree⟩ := Engine.ask_follows hsteady hw.engine hforest
        p.findsElements_host hknown query hlt
      refine ⟨A, N', hgrows, hw.withEngine hgrows hsound, ?_⟩
      rw [expected, hp, hagree.eq]
      rfl
  | selectCompiled page selector context =>
    cases hp : w.pages[page]? with
    | none =>
      rw [World.act, expected, hp]
      exact ⟨A, N, hkeeps, hw, rfl⟩
    | some p =>
      cases hc : w.issued[selector]? with
      | none =>
        rw [World.act, expected, hp, hc]
        exact ⟨A, N, hkeeps, hw, rfl⟩
      | some c =>
        obtain ⟨hforest, hknown⟩ := hw.host (List.mem_of_getElem? hp)
        have hfits := hw.issued c (List.mem_of_getElem? hc)
        rw [act_selectCompiled hp hc] at hlt ⊢
        obtain ⟨N', hgrows, hsound, hagree⟩ := Engine.selectCompiled_follows hsteady hw.engine
          hforest p.findsElements_host hknown hfits context hlt
        refine ⟨A, N', hgrows, hw.withEngine hgrows hsound, ?_⟩
        rw [expected, hp, hc]
        dsimp only
        rw [hagree.eq, p.document_host]
  | compile text =>
    have hfollows := Engine.compile_follows hsteady hw.engine text
    rw [World.act, named_issue] at hlt
    rw [World.act, named_issue]
    obtain ⟨N', hgrows, hsound, hagree⟩ := hfollows hlt
    refine ⟨A, N', hgrows, hw.issue hgrows hsound fun c hc => ?_, rfl⟩
    rw [hc] at hagree
    obtain ⟨_, -, -, hfits⟩ := hagree.of_ok
    exact hfits
  | tokenize text =>
    obtain ⟨N', hgrows, hsound, -⟩ := Engine.tokenize_follows hw.engine text hlt
    exact ⟨A, N', hgrows, hw.withEngine hgrows hsound, rfl⟩
  | clearCaches => exact ⟨A, N, hkeeps, hw.withEngine hkeeps hw.engine.clearCaches, rfl⟩

/-- Steps that lead from sound worlds to sound worlds do so together, as long as no name is handed
out twice. -/
theorem Sound.reflTransGen {R : World → World → Prop}
    (hnamed : ∀ {w w' : World}, R w w' → w.named ≤ w'.named)
    (hstep : ∀ {A N} {w w' : World}, w.Sound A N settings → R w w' → w'.named < UInt32.size →
      ∃ A' N', N.Grows w.named N' w'.named ∧ w'.Sound A' N' settings)
    {w' : World} (hw : w.Sound A N settings) (h : Relation.ReflTransGen R w w')
    (hlt : w'.named < UInt32.size) :
    ∃ A' N', N.Grows w.named N' w'.named ∧ w'.Sound A' N' settings := by
  induction h with
  | refl => exact ⟨A, N, .refl N _, hw⟩
  | tail _ hlast ih =>
    obtain ⟨A', N', hgrows, hsound⟩ := ih (Nat.lt_of_le_of_lt (hnamed hlast) hlt)
    obtain ⟨A'', N'', hgrows', hsound'⟩ := hstep hsound hlast hlt
    exact ⟨A'', N'', hgrows.trans hgrows', hsound'⟩

lemma named_le_after (events : List Event) (w : World) : w.named ≤ (w.after events).named := by
  induction events generalizing w with
  | nil => exact Nat.le_refl _
  | cons event rest ih => exact Nat.le_trans (named_le_act w event) (ih _)

/-- A world stays sound as long as no name is handed out twice. -/
theorem Sound.after (hw : w.Sound A N settings) (events : List Event)
    (hlt : (w.after events).named < UInt32.size) :
    ∃ A' N', N.Grows w.named N' (w.after events).named ∧ (w.after events).Sound A' N' settings := by
  induction events generalizing w A N with
  | nil => exact ⟨A, N, .refl N _, hw⟩
  | cons event rest ih =>
    obtain ⟨A', N', hgrows, hsound, -⟩ := hw.act event
      (Nat.lt_of_le_of_lt (named_le_after rest _) hlt)
    obtain ⟨A'', N'', hgrows', hsound'⟩ := ih hsound hlt
    exact ⟨A'', N'', hgrows.trans hgrows', hsound'⟩

/-- A question about a page of a sound world is answered as it is without any caches. -/
theorem Sound.ask (hw : w.Sound A N settings) {p : HookedPage} (hp : p ∈ w.pages) (query : Query)
    (hlt : (query.ask p.host w.engine).2.caches.named < UInt32.size) :
    (query.ask p.host w.engine).1 = query.answer p.host .standard settings.execution := by
  obtain ⟨hforest, hknown⟩ := hw.host hp
  obtain ⟨_, _, _, hagree⟩ := Engine.ask_follows Registry.standard_steady hw.engine hforest
    p.findsElements_host hknown query hlt
  exact hagree.eq

end World

end TreeQuery
