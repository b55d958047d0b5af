import TreeQuery.Proofs.Compile.Entries
import TreeQuery.Proofs.Compile.Plain
import TreeQuery.Proofs.Compile.Recipes
import TreeQuery.Proofs.Compile.Upkeep
import TreeQuery.Proofs.Matching.Thinning

/-!
# Tidy caches

With the standard registry every selector thins out its candidates, and caches are tidy when all
compiled selectors in them do, for the clauses that were read from their texts. Compilations keep
caches tidy, however many names they give.
-/

namespace TreeQuery

/-- Whether a recipe leads to thinning matchers only. -/
def Recipe.Thins : Recipe → Prop
  | .ready m => m.Thins
  | .reject _ => True
  | .compile _ next => ∀ c, (next c).Thins

def Registry.Thins (r : Registry) : Prop :=
  ∀ name build, r.get? name = some (.factory build) → ∀ argument, (build argument).Thins

lemma Recipe.thins_compile {text : String} {make : Compiled → Matcher}
    (h : ∀ c, (make c).Thins) : (Recipe.compile text fun c => .ready (make c)).Thins :=
  h

lemma withArgument_thins {name : String} {next : String → Recipe} (h : ∀ text, (next text).Thins)
    (argument : Option String) : (withArgument name next argument).Thins := by
  cases argument with
  | none => trivial
  | some text => exact h text

lemma indexed_thins (name : String) {choose : Int → List NodeId → List NodeId}
    (h : ∀ n seed, (choose n seed).Sublist seed) (argument : Option String) :
    (indexed name choose argument).Thins := by
  refine withArgument_thins (fun text => ?_) argument
  cases signed? (trimSpacing text.toList) with
  | none => trivial
  | some n => exact h n

lemma negationRecipe_thins (argument : Option String) : (negationRecipe argument).Thins := by
  refine withArgument_thins (fun text => Recipe.thins_compile fun c => ?_) argument
  cases c.elementTest with
  | none => exact trivial
  | some t => exact trivial

lemma membershipRecipe_thins (argument : Option String) : (membershipRecipe argument).Thins := by
  refine withArgument_thins (fun text => Recipe.thins_compile fun c => ?_) argument
  cases c.elementTest with
  | none => exact trivial
  | some t => exact trivial

lemma hasRecipe_thins (argument : Option String) : (hasRecipe argument).Thins := by
  refine withArgument_thins (fun text => Recipe.thins_compile fun c => ?_) argument
  exact trivial

lemma containsRecipe_thins (argument : Option String) : (containsRecipe argument).Thins := by
  refine withArgument_thins (fun text => ?_) argument
  exact trivial

lemma langRecipe_thins (argument : Option String) : (langRecipe argument).Thins := by
  unfold langRecipe
  dsimp only
  split
  · exact trivial
  · exact trivial

lemma factories_thins : ∀ entry ∈ factories, ∀ argument, (entry.2 argument).Thins :=
  forall_mem_factories negationRecipe_thins (fun _ _ => membershipRecipe_thins) hasRecipe_thins
    containsRecipe_thins langRecipe_thins (fun _ _ h _ => h) fun name _ h => indexed_thins name h

lemma Registry.standard_thins : standard.Thins := by
  intro name build h argument
  obtain ⟨entry, hentry, rfl⟩ := mem_factories_of_get? h
  exact factories_thins entry hentry argument

/-- Whether every entry was read from its text, and every compiled selector thins. -/
structure CompileCaches.Tidy (c : CompileCaches) : Prop where
  tokens : ∀ entry ∈ c.tokens.entries, SelectorList.parse entry.1 = .ok entry.2.value
  compiled : ∀ entry ∈ c.compiled.entries,
    SelectorList.parse entry.1 = .ok entry.2.value.list ∧ entry.2.value.Thins

namespace CompileCaches

lemma tidy_empty (capacities : CacheCapacities) : (empty capacities).Tidy where
  tokens _ h := nomatch h
  compiled _ h := nomatch h

lemma Tidy.clear {c : CompileCaches} (_ : c.Tidy) : c.clear.Tidy where
  tokens _ h := nomatch h
  compiled _ h := nomatch h

end CompileCaches

namespace Compile

open Fallible (Keeps)

/-- Whether a draft has thinning steps only. -/
structure Draft.Thins (d : Draft) : Prop where
  stages : ∀ stage ∈ d.stages, stage.Thins
  narrowers : ∀ ms, d.narrowers = some ms → ∀ m ∈ ms, m.Thins

namespace Draft.Thins

variable {d : Draft}

lemma start (plan : MatcherId) : (Draft.start plan).Thins where
  stages _ h := nomatch h
  narrowers _ h := nomatch h

lemma endStage (h : d.Thins) : d.endStage.Thins := by
  unfold Draft.endStage
  split
  · exact h
  · rename_i narrowers hnarrowers
    refine ⟨fun stage hstage => ?_, fun _ h => nomatch h⟩
    obtain hstage | hstage := List.mem_append.mp hstage
    · exact h.stages stage hstage
    · obtain rfl := List.mem_singleton.mp hstage
      exact h.narrowers narrowers hnarrowers

lemma lead (h : d.Thins) (c : Combinator) : (d.lead c).Thins := ⟨h.stages, h.narrowers⟩

lemma relate (h : d.Thins) (c : Combinator) (id : MatcherId) : (d.relate c id).Thins :=
  ⟨h.stages, h.narrowers⟩

lemma addMatcher (h : d.Thins) {m : Matcher} (hm : m.Thins) : (d.addMatcher m).Thins := by
  unfold Draft.addMatcher
  split
  · rename_i _ _ narrowers hnarrowers
    refine ⟨h.stages, fun ms hms x hx => ?_⟩
    obtain rfl := Option.some.inj hms
    obtain hx | hx := List.mem_append.mp hx
    · exact h.narrowers narrowers hnarrowers x hx
    · exact List.mem_singleton.mp hx ▸ hm
  · exact ⟨h.stages, h.narrowers⟩
  · refine ⟨h.stages, fun ms hms x hx => ?_⟩
    obtain rfl := Option.some.inj hms
    exact List.mem_singleton.mp hx ▸ hm

lemma finish (h : d.Thins) {siblingLed : Bool} {plan : Plan}
    (hplan : d.finish siblingLed = .inr plan) : plan.Thins := by
  unfold Draft.finish at hplan
  dsimp only at hplan
  split at hplan
  · exact nomatch hplan
  · obtain rfl := Sum.inr.inj hplan
    refine ⟨h.stages, ?_⟩
    cases hnarrowers : d.narrowers with
    | none => exact fun _ hm => nomatch hm
    | some ms => exact h.narrowers ms hnarrowers

end Draft.Thins

lemma issue_keeps {α : Type} (value : α) :
    Keeps CompileCaches.Tidy (issue value) fun issued => issued.value = value :=
  Keeps.modifyGet fun _ h => ⟨⟨h.tokens, h.compiled⟩, rfl⟩

lemma freshId_keeps : Keeps CompileCaches.Tidy freshId fun _ => True :=
  Keeps.modifyGet fun _ h => ⟨⟨h.tokens, h.compiled⟩, trivial⟩

lemma tokenize_keeps (text : String) :
    Keeps CompileCaches.Tidy (tokenize text) fun list =>
      SelectorList.parse text = .ok list.value := by
  have hlookup : Keeps CompileCaches.Tidy
      (modifyGet fun c => ((c.tokens.get text).1, { c with tokens := (c.tokens.get text).2 }) :
        Compile (Option (Issued SelectorList)))
      fun found => ∀ list, found = some list → SelectorList.parse text = .ok list.value :=
    Keeps.modifyGet fun c h =>
      ⟨⟨h.tokens, h.compiled⟩, fun list hlist => h.tokens (text, list) (BoundedCache.mem_of_get hlist)⟩
  refine hlookup.bind fun found hfound => ?_
  cases found with
  | some list => exact Keeps.pure (hfound list rfl)
  | none =>
    refine (Keeps.liftExcept fun _ h => h).bind fun list hlist => ?_
    refine (issue_keeps list).bind fun issued hissued => ?_
    have hparse : SelectorList.parse text = .ok issued.value := hissued ▸ hlist
    refine (Keeps.modify fun c h => ⟨fun entry hentry => ?_, h.compiled⟩).bind
      fun _ _ => Keeps.pure hparse
    obtain rfl | hentry := BoundedCache.mem_of_mem_insert hentry
    · exact hparse
    · exact h.tokens entry hentry

lemma classPattern_keeps [PatternLibrary] (word : String) :
    Keeps CompileCaches.Tidy (classPattern word) fun _ => True := by
  refine (Keeps.modifyGet (P := fun _ => True) fun c h =>
    ⟨⟨h.tokens, h.compiled⟩, trivial⟩).bind fun found _ => ?_
  cases found with
  | some pattern => exact Keeps.pure trivial
  | none =>
    refine (Keeps.liftExcept fun _ h => h).bind fun pattern _ => ?_
    refine (issue_keeps pattern).bind fun issued _ => ?_
    exact (Keeps.modify fun _ h => ⟨h.tokens, h.compiled⟩).bind fun _ _ => Keeps.pure trivial

section

variable {registry : Registry} {nested : String → Compile Compiled}
  (hnested : ∀ text, Keeps CompileCaches.Tidy (nested text) fun _ => True)
include hnested

lemma follow_keeps : ∀ {r : Recipe}, r.Thins →
    Keeps CompileCaches.Tidy (follow nested r) Matcher.Thins
  | .ready _, h => Keeps.pure h
  | .reject e, _ => Keeps.throw e
  | .compile text _, h => (hnested text).bind fun c _ => follow_keeps (h c)

variable [PatternLibrary] (hr : registry.Thins)
include hr

lemma simple_keeps (value : TokenValue) :
    Keeps CompileCaches.Tidy (simple registry nested value) Matcher.Thins := by
  unfold simple
  split
  · exact Keeps.pure trivial
  · exact Keeps.pure trivial
  · exact (classPattern_keeps _).bind fun _ _ => Keeps.pure trivial
  · exact Keeps.pure trivial
  · exact Keeps.pure trivial
  · split
    · exact Keeps.pure trivial
    · rename_i build hget
      exact follow_keeps hnested (hr _ build hget _)
    · exact Keeps.throw _
  · exact Keeps.throw _

lemma addToken_keeps {draft : Draft} (token : Token) (h : draft.Thins) :
    Keeps CompileCaches.Tidy (addToken registry nested draft token) Draft.Thins := by
  unfold addToken
  split
  · unfold Draft.addCombinator
    dsimp only
    split
    · exact Keeps.pure (h.endStage.lead _)
    · exact freshId_keeps.bind fun id _ => Keeps.pure (h.endStage.relate _ id)
  · exact (simple_keeps hnested hr _).bind fun _ hm => Keeps.pure (h.addMatcher hm)

lemma clause_keeps (c : Clause) :
    Keeps CompileCaches.Tidy (clause registry nested c) fun made =>
      ∀ plan, made = .inr plan → plan.Thins := by
  refine freshId_keeps.bind fun id _ => ?_
  refine (Keeps.foldlM (fun _ token h => addToken_keeps hnested hr token h) c
    (Draft.Thins.start id)).bind fun draft hdraft => ?_
  exact Keeps.pure fun _ hplan => hdraft.finish hplan

lemma clauses_keeps : ∀ cs : List Clause,
    Keeps CompileCaches.Tidy (clauses registry nested cs) fun made =>
      ∀ plan ∈ made.2, plan.Thins
  | [] => Keeps.pure fun _ h => nomatch h
  | c :: rest => by
    refine (clause_keeps hnested hr c).bind fun compiled hcompiled => ?_
    refine (clauses_keeps rest).bind fun others hothers => ?_
    cases compiled with
    | inl t => exact Keeps.pure hothers
    | inr plan =>
      refine Keeps.pure fun other hother => ?_
      obtain rfl | hother := List.mem_cons.mp hother
      · exact hcompiled other rfl
      · exact hothers other hother

lemma selectorList_keeps (list : SelectorList) :
    Keeps CompileCaches.Tidy (selectorList registry nested list) fun c =>
      c.list = list ∧ c.Thins :=
  (clauses_keeps hnested hr list.clauses).bind fun _ h => Keeps.pure ⟨rfl, h⟩

end

lemma textWithin_keeps [PatternLibrary] {registry : Registry} (hr : registry.Thins) :
    ∀ (depth : Nat) (text : String),
      Keeps CompileCaches.Tidy (textWithin registry depth text) fun c =>
        SelectorList.parse text = .ok c.value.list ∧ c.value.Thins
  | 0, text => Keeps.throw _
  | depth + 1, text => by
    have hlookup : Keeps CompileCaches.Tidy
        (modifyGet fun c =>
          ((c.compiled.get text).1, { c with compiled := (c.compiled.get text).2 }) :
            Compile (Option (Issued Compiled)))
        fun found => ∀ c, found = some c →
          SelectorList.parse text = .ok c.value.list ∧ c.value.Thins :=
      Keeps.modifyGet fun _ h =>
        ⟨⟨h.tokens, h.compiled⟩, fun c hc => h.compiled (text, c) (BoundedCache.mem_of_get hc)⟩
    refine hlookup.bind fun found hfound => ?_
    cases found with
    | some selector => exact Keeps.pure (hfound selector rfl)
    | none =>
      have hnested : ∀ inner, Keeps CompileCaches.Tidy
          (do return (← textWithin registry depth inner).value) fun _ => True :=
        fun inner => (textWithin_keeps hr depth inner).bind fun _ _ => Keeps.pure trivial
      refine (tokenize_keeps text).bind fun list hlist => ?_
      refine (selectorList_keeps hnested hr list.value).bind fun c hc => ?_
      refine (issue_keeps c).bind fun issued hissued => ?_
      have hmade : SelectorList.parse text = .ok issued.value.list ∧ issued.value.Thins := by
        rw [hissued, hc.1]
        exact ⟨hlist, hc.2⟩
      refine (Keeps.modify fun c h => ⟨h.tokens, fun entry hentry => ?_⟩).bind
        fun _ _ => Keeps.pure hmade
      obtain rfl | hentry := BoundedCache.mem_of_mem_insert hentry
      · exact hmade
      · exact h.compiled entry hentry

end Compile

namespace Plain

open Compile

variable {registry : Registry} {nested : String → Except SelectorError Compiled}

lemma thins_of_follow : ∀ {r : Recipe} {m : Matcher}, r.Thins → follow nested r = .ok m → m.Thins
  | .ready _, _, h, hm => Except.ok.inj hm ▸ h
  | .reject _, _, _, hm => nomatch hm
  | .compile text next, m, h, hm => by
    obtain ⟨c, -, hm⟩ := bind_eq_ok hm
    exact thins_of_follow (h c) hm

variable [PatternLibrary] (hr : registry.Thins)
include hr

lemma thins_of_simple {value : TokenValue} {m : Matcher}
    (hm : simple registry nested value = .ok m) : m.Thins := by
  unfold simple at hm
  split at hm
  · exact Except.ok.inj hm ▸ trivial
  · exact Except.ok.inj hm ▸ trivial
  · exact ClassPattern.eq_of_map_build hm ▸ trivial
  · exact Except.ok.inj hm ▸ trivial
  · exact Except.ok.inj hm ▸ trivial
  · split at hm
    · exact Except.ok.inj hm ▸ trivial
    · rename_i build hget
      exact thins_of_follow (hr _ build hget _) hm
    · exact nomatch hm
  · exact nomatch hm

lemma thins_of_addToken {d d' : Draft} {t : Token} (hd : d.Thins)
    (hadd : addToken registry nested d t = .ok d') : d'.Thins := by
  unfold addToken at hadd
  split at hadd
  · obtain rfl := Except.ok.inj hadd
    unfold addCombinator
    dsimp only
    split
    · exact hd.endStage.lead _
    · exact hd.endStage.relate _ 0
  · cases hm : simple registry nested t.value with
    | error e => simp [hm, Except.map] at hadd
    | ok m =>
      rw [hm] at hadd
      exact Except.ok.inj hadd ▸ hd.addMatcher (thins_of_simple hr hm)

lemma thins_of_foldlM : ∀ {ts : List Token} {d d' : Draft}, d.Thins →
    ts.foldlM (addToken registry nested) d = .ok d' → d'.Thins
  | [], _, _, hd, hfold => Except.ok.inj hfold ▸ hd
  | t :: rest, d, d', hd, hfold => by
    rw [List.foldlM_cons] at hfold
    obtain ⟨next, hadd, hfold⟩ := bind_eq_ok hfold
    exact thins_of_foldlM (thins_of_addToken hr hd hadd) hfold

lemma thins_of_clause {c : Clause} {plan : Plan}
    (hmade : clause registry nested c = .ok (.inr plan)) : plan.Thins := by
  obtain ⟨d, hfold, hmade⟩ := bind_eq_ok hmade
  exact (thins_of_foldlM hr (Draft.Thins.start 0) hfold).finish (Except.ok.inj hmade)

end Plain

end TreeQuery
