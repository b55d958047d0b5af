import TreeQuery.Proofs.Tree.Orderly
import TreeQuery.Proofs.Engine.World

/-!
# Names that come again

Walks and plans are named by 32 bits, in the order in which they are compiled, and a text that does
not compile may use up a name all the same. When all names are spent, the next one is again the one
that an older walk or plan bears, which a cache or a program may still hold.
-/

namespace TreeQuery

/-- The caches after as many lookups of a text that was read and does not compile, each of which has
used up a name. -/
def CompileCaches.spend (c : CompileCaches) (count : Nat) : CompileCaches :=
  let read := c.tokens.stats
  let sought := c.compiled.stats
  { c with
    tokens := { c.tokens with
      stats := { read with lookups := read.lookups + count, hits := read.hits + count } }
    compiled := { c.compiled with
      stats := { sought with lookups := sought.lookups + count, misses := sought.misses + count } }
    named := c.named + count }

/-- What comes out of a computation that succeeds with something acceptable. -/
theorem exists_ok_of_any {ε α σ : Type} {out : Except ε α × σ} {accepts : α → Bool}
    (h : out.1.toOption.any accepts = true) : ∃ a, out = (.ok a, out.2) ∧ accepts a = true := by
  obtain ⟨_ | a, state⟩ := out
  · exact nomatch h
  · exact ⟨a, rfl, h⟩

lemma Compile.tokenize_found {c : CompileCaches} {text : String} {list : Issued SelectorList}
    (h : c.tokens.peek text = some list) :
    tokenize text c = (.ok list, { c with tokens := (c.tokens.get text).2 }) := by
  have hget : (c.tokens.get text).1 = some list := h
  rw [tokenize, modifyGet_bind]
  dsimp only
  rw [hget]
  rfl

/-- After as many names as there are, the next one is the one that was next before. -/
theorem CompileCaches.freshId_spend (c : CompileCaches) :
    (Compile.freshId (c.spend UInt32.size)).1 = (Compile.freshId c).1 := by
  have hname : ∀ named, UInt32.ofNat (named + UInt32.size + 1) = UInt32.ofNat (named + 1) := by
    intro named
    apply UInt32.toNat_inj.mp
    rw [UInt32.toNat_ofNat', UInt32.toNat_ofNat', Nat.add_right_comm]
    exact Nat.add_mod_right _ _
  exact congrArg Except.ok (hname c.named)

/-- Whether caches hold what a text was read as, which is a call of one pseudo-class that a registry
does not know. -/
def CompileCaches.Refuses (c : CompileCaches) (registry : Registry) (text : String) : Prop :=
  c.compiled.peek text = none ∧ ∃ raw call,
    (c.tokens.peek text).map (·.value.clauses) = some [[⟨raw, .pseudo call⟩]] ∧
      registry.get? call.name = none

namespace Compile

variable [PatternLibrary]

lemma selectorList_unknown {registry : Registry} {list : SelectorList} {raw : String}
    {call : PseudoClass} (hlist : list.clauses = [[⟨raw, .pseudo call⟩]])
    (hunknown : registry.get? call.name = none) (nested : String → Compile Compiled)
    (c : CompileCaches) :
    selectorList registry nested list c =
      (.error (.unsupportedPseudo call.name), { c with named := c.named + 1 }) := by
  simp only [selectorList, hlist, clauses, clause, bind_assoc, List.foldlM_cons, addToken, simple,
    hunknown]
  rfl

/-- A text that is refused uses up a name. -/
theorem text_spends {registry : Registry} {c : CompileCaches} {text : String}
    (h : c.Refuses registry text) :
    ∃ fault, Compile.text registry text c = (.error fault, c.spend 1) := by
  obtain ⟨hnone, raw, call, hread, hunknown⟩ := h
  obtain ⟨list, hlist, hclauses⟩ := Option.map_eq_some_iff.mp hread
  have hsought : (c.compiled.get text).1 = none := hnone
  have hfound : tokenize text { c with compiled := (c.compiled.get text).2 } = (.ok list, _) :=
    tokenize_found hlist
  refine ⟨.unsupportedPseudo call.name, ?_⟩
  rw [Compile.text, textWithin, modifyGet_bind]
  dsimp only
  rw [hsought]
  dsimp only
  rw [Fallible.bind_apply, hfound]
  dsimp only
  rw [Fallible.bind_apply, selectorList_unknown hclauses hunknown]
  simp [CompileCaches.spend, BoundedCache.get, hlist, hnone]

end Compile

namespace World

def spend (w : World) (count : Nat) : World :=
  { w with engine := { w.engine with caches := w.engine.caches.spend count } }

@[simp] lemma pages_spend (w : World) (count : Nat) : (w.spend count).pages = w.pages := rfl

section

variable [PatternLibrary]

/-- Compiling a text that is refused uses up one name each time and does nothing else but count. -/
theorem after_refusals {w : World} {text : String}
    (h : w.engine.caches.Refuses w.engine.registry text) (count : Nat) :
    w.after (List.replicate count (.compile text)) = w.spend count := by
  induction count generalizing w with
  | zero => rfl
  | succ count ih =>
    obtain ⟨fault, hcompile⟩ := Compile.text_spends h
    have hstep : (w.act (.compile text)).1 = w.spend 1 := by
      rw [act, Engine.compile, Engine.get_bind, Engine.liftCompile, hcompile]
      rfl
    have hrefuses : (w.spend 1).engine.caches.Refuses (w.spend 1).engine.registry text := h
    rw [List.replicate_succ, after, hstep, ih hrefuses]
    simp [spend, CompileCaches.spend, Nat.add_assoc, Nat.add_comm 1 count]

/-- When all names are spent, the next one is the one that was next before. -/
theorem freshId_after_refusals {w : World} {text : String}
    (h : w.engine.caches.Refuses w.engine.registry text) :
    (Compile.freshId (w.after (List.replicate UInt32.size (.compile text))).engine.caches).1 =
      (Compile.freshId w.engine.caches).1 := by
  rw [after_refusals h]
  exact w.engine.caches.freshId_spend

end

section Sample

attribute [local instance] PatternLibrary.standard

def spentSettings : Settings := Settings.standard.withFastPath false

/-- A page gets a list of two items, a selector is compiled, for which two names are given, and a
text is read that is refused. -/
def spentRun : List Event :=
  [.create false, .mutate 0 Document.sample.nodes Document.isForest_sample, .compile "div li",
    .tokenize ":bogus"]

def spentStart : World := (start (.fresh spentSettings)).after spentRun

/-- The two names are the next ones again. -/
def spentWorld : World :=
  (start (.fresh spentSettings)).after (spentRun ++ List.replicate 4294967294 (.compile ":bogus"))

lemma spentWorld_eq : spentWorld = spentStart.spend 4294967294 := by
  have hrefused : (spentStart.engine.caches.compiled.peek ":bogus").isNone = true ∧
      (spentStart.engine.registry.get? "bogus").isNone = true ∧
      (spentStart.engine.caches.tokens.peek ":bogus").map (·.value.clauses) =
        some [[⟨":bogus", .pseudo ⟨"bogus", none, false⟩⟩]] := by
    decide +kernel
  obtain ⟨hcompiled, hunknown, hread⟩ := hrefused
  rw [spentWorld, after_append]
  exact after_refusals ⟨Option.isNone_iff_eq_none.mp hcompiled, ":bogus", ⟨"bogus", none, false⟩,
    hread, Option.isNone_iff_eq_none.mp hunknown⟩ _

def spentPage : HookedPage :=
  { HookedPage.empty 0 false with document := ⟨Document.sample.nodes, false⟩ }

lemma spentPage_mem (count : Nat) : spentPage ∈ (spentStart.spend count).pages := by
  have hpages : spentStart.pages = [spentPage] := by
    dsimp only [spentStart, spentRun, after, act]
    rw [pages_issue]
    rfl
  rw [pages_spend, hpages]
  exact List.mem_singleton_self _

lemma spentPage_mem_spentWorld : spentPage ∈ spentWorld.pages := by
  rw [spentWorld_eq]
  exact spentPage_mem _

end Sample

end World

end TreeQuery
