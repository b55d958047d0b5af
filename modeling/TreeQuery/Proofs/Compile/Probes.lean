import TreeQuery.Compile.Compiler
import TreeQuery.Proofs.Compile.Entries
import TreeQuery.Proofs.Compile.Upkeep
import TreeQuery.Proofs.Selector.Margins

/-!
# Probing with a cache

Nothing is left over of a text that is accepted, so what is in the token cache may be passed over by
a probe. What is in it was read from its text, after whatever calls.
-/

namespace TreeQuery

section Caches

open Compile
open Fallible (Keeps)

/-- Whether every selector list in the token cache was read from its text. -/
def CompileCaches.Read (c : CompileCaches) : Prop :=
  ∀ entry ∈ c.tokens.entries, SelectorList.parse entry.1 = .ok entry.2.value

lemma CompileCaches.Read.unread {c : CompileCaches} (h : c.Read) (text : String) :
    c.unread text = SelectorList.unread text := by
  rw [CompileCaches.unread, BoundedCache.contains]
  cases hfound : c.tokens.peek text with
  | none => rfl
  | some list => exact (SelectorList.unread_of_parse (h _ (BoundedCache.mem_of_peek hfound))).symm

lemma CompileCaches.read_empty (capacities : CacheCapacities) : (empty capacities).Read :=
  nofun

/-- Whether a computation puts into the token cache what it reads only. -/
abbrev Reads {α : Type} (action : Compile α) : Prop :=
  Keeps CompileCaches.Read action fun _ => True

lemma Reads.modifyGet {α : Type} {f : CompileCaches → α × CompileCaches}
    (h : ∀ c, (f c).2.tokens.entries = c.tokens.entries) :
    Reads (modifyGet f : Compile α) :=
  Keeps.modifyGet fun c hc => ⟨by rw [CompileCaches.Read, h c]; exact hc, trivial⟩

lemma freshId_reads : Reads freshId := .modifyGet fun _ => rfl

lemma issue_reads {α : Type} (value : α) : Reads (issue value) := .modifyGet fun _ => rfl

lemma tokenize_reads (text : String) : Reads (tokenize text) := by
  refine Keeps.bind (Reads.modifyGet fun _ => rfl) fun found _ => ?_
  cases found with
  | some list => exact Keeps.pure trivial
  | none =>
    refine (Keeps.liftExcept fun _ h => h).bind fun list hlist => ?_
    have hissued : Keeps CompileCaches.Read (issue list) fun issued => issued.value = list :=
      Keeps.modifyGet fun c hc => ⟨hc, rfl⟩
    refine hissued.bind fun issued hvalue => ?_
    refine (Keeps.modify fun c hc entry hentry => ?_).bind fun _ _ => Keeps.pure trivial
    obtain rfl | hentry := BoundedCache.mem_of_mem_insert hentry
    · exact hvalue ▸ hlist
    · exact hc entry hentry

lemma classPattern_reads [PatternLibrary] (word : String) : Reads (classPattern word) := by
  refine Keeps.bind (Reads.modifyGet fun _ => rfl) fun found _ => ?_
  cases found with
  | some pattern => exact Keeps.pure trivial
  | none =>
    refine (Keeps.liftExcept fun _ h => h).bind fun pattern _ => ?_
    refine (issue_reads pattern).bind fun issued _ => ?_
    exact (Keeps.modify fun c hc => hc).bind fun _ _ => Keeps.pure trivial

section

variable {registry : Registry} {nested : String → Compile Compiled}
  (hnested : ∀ text, Reads (nested text))
include hnested

lemma follow_reads : ∀ r : Recipe, Reads (follow nested r)
  | .ready _ => Keeps.pure trivial
  | .reject e => Keeps.throw e
  | .compile text next => (hnested text).bind fun c _ => follow_reads (next c)

variable [PatternLibrary]

lemma simple_reads (value : TokenValue) : Reads (simple registry nested value) := by
  unfold simple
  split
  · exact Keeps.pure trivial
  · exact Keeps.pure trivial
  · exact (classPattern_reads _).bind fun _ _ => Keeps.pure trivial
  · exact Keeps.pure trivial
  · exact Keeps.pure trivial
  · split
    · exact Keeps.pure trivial
    · exact follow_reads hnested _
    · exact Keeps.throw _
  · exact Keeps.throw _

lemma addToken_reads (draft : Draft) (token : Token) :
    Reads (addToken registry nested draft token) := by
  unfold addToken
  split
  · unfold Draft.addCombinator
    dsimp only
    split
    · exact Keeps.pure trivial
    · exact freshId_reads.bind fun _ _ => Keeps.pure trivial
  · exact (simple_reads hnested _).bind fun _ _ => Keeps.pure trivial

lemma clause_reads (c : Clause) : Reads (clause registry nested c) := by
  refine freshId_reads.bind fun id _ => ?_
  refine (Keeps.foldlM (fun draft token _ => addToken_reads hnested draft token) c trivial).bind
    fun draft _ => ?_
  exact Keeps.pure trivial

lemma clauses_reads : ∀ cs : List Clause, Reads (clauses registry nested cs)
  | [] => Keeps.pure trivial
  | c :: rest => by
    refine (clause_reads hnested c).bind fun compiled _ => ?_
    refine (clauses_reads rest).bind fun others _ => ?_
    cases compiled <;> exact Keeps.pure trivial

lemma selectorList_reads (list : SelectorList) : Reads (selectorList registry nested list) :=
  (clauses_reads hnested list.clauses).bind fun _ _ => Keeps.pure trivial

end

variable [PatternLibrary]

lemma textWithin_reads (registry : Registry) : ∀ (depth : Nat) (text : String),
    Reads (textWithin registry depth text)
  | 0, _ => Keeps.throw _
  | depth + 1, text => by
    refine Keeps.bind (Reads.modifyGet fun _ => rfl) fun found _ => ?_
    cases found with
    | some selector => exact Keeps.pure trivial
    | none =>
      have hnested : ∀ inner, Reads (do return (← textWithin registry depth inner).value) :=
        fun inner => (textWithin_reads registry depth inner).bind fun _ _ => Keeps.pure trivial
      refine (tokenize_reads text).bind fun list _ => ?_
      refine (selectorList_reads hnested list.value).bind fun compiled _ => ?_
      refine (issue_reads compiled).bind fun issued _ => ?_
      exact (Keeps.modify fun c hc => hc).bind fun _ _ => Keeps.pure trivial

/-- What may be asked of the caches. The registry may be another one each time. -/
inductive CacheCall where
  | tokenize (text : String)
  | compile (registry : Registry) (text : String)
  | classPattern (word : String)
  | clear
  | clearCompiled

namespace CacheCall

/-- The caches after a call, whether it fails or not. -/
def run : CacheCall → CompileCaches → CompileCaches
  | .tokenize text, c => (Compile.tokenize text c).2
  | .compile registry text, c => (Compile.text registry text c).2
  | .classPattern word, c => (Compile.classPattern word c).2
  | .clear, c => c.clear
  | .clearCompiled, c => c.clearCompiled

lemma read_run {c : CompileCaches} (h : c.Read) (call : CacheCall) : (call.run c).Read := by
  cases call with
  | tokenize text => exact (tokenize_reads text c h).1
  | compile registry text => exact (textWithin_reads registry _ text c h).1
  | classPattern word => exact (classPattern_reads word c h).1
  | clear => exact nofun
  | clearCompiled => exact h

/-- The caches after some calls, empty before the first. -/
def reached (capacities : CacheCapacities) (calls : List CacheCall) : CompileCaches :=
  calls.foldl (fun c call => call.run c) (.empty capacities)

lemma read_reached (capacities : CacheCapacities) (calls : List CacheCall) :
    (reached capacities calls).Read :=
  List.foldlRecOn calls _ (CompileCaches.read_empty capacities) fun _ hc call _ => read_run hc call

end CacheCall

/-- What was read before does not change the outcome of a probe. The scan of a text that is accepted
leaves nothing over, blanks around it included, and so a probe of it comes to its end. -/
theorem CompileCaches.unread_reached (capacities : CacheCapacities) (calls : List CacheCall)
    (text : String) :
    (CacheCall.reached capacities calls).unread text = SelectorList.unread text ∧
      ∀ list, SelectorList.parse text = .ok list →
        (scan false text.toList).rest = [] ∧ SelectorList.unread text = 0 :=
  ⟨(CacheCall.read_reached capacities calls).unread text, fun _ hparse =>
    ⟨SelectorList.scan_rest_of_parse hparse, SelectorList.unread_of_parse hparse⟩⟩

end Caches

section Sample

attribute [local instance] PatternLibrary.standard

theorem CompileCaches.unread_reached_sample :
    (scan false "\t> a , b\\ \\61 \n".toList).rest = [] ∧
      (CacheCall.reached ⟨1, 1, 1⟩ [.tokenize "p", .compile .standard "\t> a , b\\ \\61 \n",
        .clearCompiled]).unread "\t> a , b\\ \\61 \n" = 0 := by
  have hparse : ∃ list, SelectorList.parse "\t> a , b\\ \\61 \n" = .ok list :=
    ⟨⟨"> a , b\\ \\61", [[⟨"> ", .combinator .child⟩, ⟨"a", .tag "a"⟩],
      [⟨"b\\ \\61", .tag "b a"⟩]]⟩, by decide +kernel⟩
  obtain ⟨list, hparse⟩ := hparse
  obtain ⟨hcached, haccepted⟩ := CompileCaches.unread_reached ⟨1, 1, 1⟩ [.tokenize "p",
    .compile .standard "\t> a , b\\ \\61 \n", .clearCompiled] "\t> a , b\\ \\61 \n"
  obtain ⟨hrest, hunread⟩ := haccepted list hparse
  exact ⟨hrest, hcached.trans hunread⟩

end Sample

end TreeQuery
