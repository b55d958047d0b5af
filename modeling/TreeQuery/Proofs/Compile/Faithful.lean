import TreeQuery.Proofs.Compile.Coherence
import TreeQuery.Proofs.Compile.Drafts

/-!
# Compiling with caches and names

From coherent caches a text compiles to what it compiles to without caches and names, or fails with
the same error, as long as no name has been given twice.
-/

namespace TreeQuery

namespace Compile

open Ledger

variable {registry : Registry} {N : Naming} {c : CompileCaches}

/-- Whether a matcher bears its names and is another one when they are dropped. -/
def MatcherFollows (N : Naming) (m m' : Matcher) : Prop := m' = m.unnamed ∧ m.Fits N

def CompiledFollows (N : Naming) (c c' : Compiled) : Prop := c' = c.unnamed ∧ c.Fits N

lemma toNat_ofNat_named {named : Nat} (hlt : named < UInt32.size) :
    (UInt32.ofNat named).toNat = named :=
  UInt32.toNat_ofNat_of_lt' hlt

lemma structuralTest_follows (N : Naming) (p : StructuralPosition) :
    MatcherFollows N (.test (simple.structuralTest p)) (.test (simple.structuralTest p)) := by
  unfold simple.structuralTest
  dsimp only
  split <;> exact ⟨rfl, trivial⟩

variable [PatternLibrary]

/-- The next name is fresh as long as names do not start again. -/
theorem fresh_name (hc : c.Coherent registry N) (hlt : c.named + 1 < UInt32.size) :
    N (.ofNat (c.named + 1)) = none := by
  cases h : N (.ofNat (c.named + 1)) with
  | none => rfl
  | some found =>
    have hle := hc.named h
    rw [toNat_ofNat_named hlt] at hle
    omega

/-- Counting a name up without giving it keeps caches coherent. -/
theorem reserve_next (hc : c.Coherent registry N) :
    N.Grows c.named N (c.named + 1) ∧
      CompileCaches.Coherent registry N { c with named := c.named + 1 } :=
  ⟨⟨fun _ _ h => h, Nat.le_succ _, fun hnone hsome => absurd hnone hsome⟩,
    ⟨hc.tokens, hc.classes, hc.compiled, fun h => Nat.le_succ_of_le (hc.named h)⟩⟩

/-- Giving a name that has been counted and not been given keeps caches coherent. -/
theorem assign_reserved {N' : Naming} {c' : CompileCaches} {id : MatcherId}
    (hgrows : N.Grows c.named N' c'.named) (hc' : c'.Coherent registry N') (hnone : N' id = none)
    (hlt : c.named < id.toNat) (hle : id.toNat ≤ c'.named) (named : Named) :
    N.Grows c.named (N'.assign id named) c'.named ∧ c'.Coherent registry (N'.assign id named) := by
  have hkeeps := Naming.assign_extends hnone named
  refine ⟨⟨fun other found h => hkeeps _ _ (hgrows.keeps other found h), hgrows.le,
    fun {other} hold hnew => ?_⟩, ⟨hc'.tokens, hc'.classes, fun entry hentry => ?_,
    fun {other found} hfound => ?_⟩⟩
  · by_cases heq : other = id
    · exact heq ▸ hlt
    · rw [Naming.assign, if_neg heq] at hnew
      exact hgrows.fresh hold hnew
  · obtain ⟨hplain, hfits⟩ := hc'.compiled entry hentry
    exact ⟨hplain, Compiled.Fits.mono hkeeps _ hfits⟩
  · by_cases heq : other = id
    · exact heq ▸ hle
    · rw [Naming.assign, if_neg heq] at hfound
      exact hc'.named hfound

lemma assign_next (hc : c.Coherent registry N) (hlt : c.named + 1 < UInt32.size) (named : Named) :
    N.Grows c.named (N.assign (.ofNat (c.named + 1)) named) (c.named + 1) ∧
      CompileCaches.Coherent registry (N.assign (.ofNat (c.named + 1)) named)
        { c with named := c.named + 1 } := by
  obtain ⟨hgrows, hcoherent⟩ := reserve_next hc
  have htoNat := toNat_ofNat_named hlt
  exact assign_reserved hgrows hcoherent (fresh_name hc hlt) (by omega) (Nat.le_of_eq htoNat) named

/-- What is made and kept is what is made without a cache. -/
theorem keep_follows {α : Type} {plain : Except SelectorError α} {c' : CompileCaches}
    {keep : Issued α → CompileCaches → CompileCaches} (hc' : c'.Coherent registry N)
    (hcount : c'.named = c.named) (hnamed : ∀ made c, (keep made c).named = c.named)
    (hkeep : ∀ made, plain = .ok made.value →
      (keep made { c' with issued := c'.issued + 1 }).Coherent registry N) :
    (CompileCaches.ledger registry).Follows N c
      ((do
        let made ← issue (← plain)
        modify (keep made)
        return made : Compile (Issued α)) c') plain fun _ made a => a = made.value := by
  rw [liftExcept_bind]
  cases hplain : plain with
  | error e => exact .error hc' hcount
  | ok a =>
    dsimp only
    rw [issue_bind, modify_bind]
    exact Follows.ok (hkeep ⟨a, c'.issued⟩ hplain) ((hnamed _ _).trans hcount) rfl

lemma tokenize_follows (hc : c.Coherent registry N) (text : String) :
    (CompileCaches.ledger registry).Follows N c (tokenize text c) (SelectorList.parse text)
      fun _ list list' => list' = list.value := by
  have hlooked : CompileCaches.Coherent registry N { c with tokens := (c.tokens.get text).2 } :=
    ⟨hc.tokens, hc.classes, hc.compiled, hc.named⟩
  rw [tokenize, modifyGet_bind]
  dsimp only
  cases hget : (c.tokens.get text).1 with
  | some list =>
    have hparse : SelectorList.parse text = .ok list.value :=
      hc.tokens (text, list) (BoundedCache.mem_of_get hget)
    rw [hparse]
    exact Follows.ok hlooked rfl rfl
  | none =>
    refine keep_follows hlooked rfl (fun _ _ => rfl) fun list hparse =>
      ⟨fun entry hentry => ?_, hc.classes, hc.compiled, hc.named⟩
    obtain rfl | hold := BoundedCache.mem_of_mem_insert hentry
    · exact hparse
    · exact hc.tokens entry hold

lemma classPattern_follows (hc : c.Coherent registry N) (word : String) :
    (CompileCaches.ledger registry).Follows N c (classPattern word c) (ClassPattern.build word)
      fun _ pattern pattern' => pattern' = pattern.value := by
  have hlooked : CompileCaches.Coherent registry N { c with classes := (c.classes.get word).2 } :=
    ⟨hc.tokens, hc.classes, hc.compiled, hc.named⟩
  rw [classPattern, modifyGet_bind]
  dsimp only
  cases hget : (c.classes.get word).1 with
  | some pattern =>
    have hbuild : ClassPattern.build word = .ok pattern.value :=
      hc.classes (word, pattern) (BoundedCache.mem_of_get hget)
    rw [hbuild]
    exact Follows.ok hlooked rfl rfl
  | none =>
    refine keep_follows hlooked rfl (fun _ _ => rfl) fun pattern hbuild =>
      ⟨hc.tokens, fun entry hentry => ?_, hc.compiled, hc.named⟩
    obtain rfl | hold := BoundedCache.mem_of_mem_insert hentry
    · exact hbuild
    · exact hc.classes entry hold

/-- Whether a computation compiles texts shorter than a bound as they compile plainly. -/
def Compiles (registry : Registry) (bound : Nat) (nested : String → Compile Compiled)
    (plain : String → Except SelectorError Compiled) : Prop :=
  (∀ text, (CompileCaches.ledger registry).Adds (nested text)) ∧
    ∀ text : String, text.length < bound → ∀ {N : Naming} {c : CompileCaches}, c.Coherent registry N →
      (CompileCaches.ledger registry).Follows N c (nested text c) (plain text) CompiledFollows

section

variable {bound : Nat} {nested : String → Compile Compiled}
  {plain : String → Except SelectorError Compiled}

lemma follow_follows (hnested : Compiles registry bound nested plain) :
    ∀ {r r' : Recipe} {N : Naming} {c : CompileCaches}, c.Coherent registry N → r.Tracks r' N →
      r.AsksWithin bound →
      (CompileCaches.ledger registry).Follows N c (follow nested r c) (Plain.follow plain r')
        MatcherFollows
  | .ready m, .ready m', N, c, hc, htracks, _ => .pure hc htracks
  | .reject e, .reject e', N, c, hc, htracks, _ => by
    rw [show e' = e from htracks]
    exact .throw hc
  | .compile text next, .compile text' next', N, c, hc, ⟨htext, hnext⟩, ⟨hlt, hasks⟩ => by
    rw [htext]
    refine (hnested.2 text hlt hc).bind (fun a => follow_adds hnested.1 _)
      fun {a b c' N'} hgrows hc' hab => ?_
    obtain ⟨rfl, hfits⟩ := hab
    exact follow_follows hnested hc' (hnext N' a hgrows.keeps hfits) (hasks a)

lemma simple_follows (hregistry : registry.Steady)
    (hnested : Compiles registry bound nested plain) (hc : c.Coherent registry N) {t : Token}
    (ht : t.Within bound) :
    (CompileCaches.ledger registry).Follows N c (simple registry nested t.value c)
      (Plain.simple registry plain t.value) MatcherFollows := by
  match hvalue : t.value with
  | .tag name => exact .pure hc ⟨rfl, trivial⟩
  | .id name => exact .pure hc ⟨rfl, trivial⟩
  | .className word =>
    refine (classPattern_follows hc word).map
      (h := fun pattern => Matcher.test (.check fun s n => s.hasClass pattern n))
      fun {N' a b} hab => ?_
    exact hab ▸ ⟨rfl, trivial⟩
  | .attribute test => exact .pure hc ⟨rfl, trivial⟩
  | .structural p => exact .pure hc (structuralTest_follows N p)
  | .pseudo call =>
    simp only [simple, Plain.simple]
    cases hget : registry.get? call.name with
    | none => exact .throw hc
    | some pseudo =>
      cases pseudo with
      | predicate accepts => exact .pure hc ⟨rfl, trivial⟩
      | factory build =>
        have hsteady := hregistry _ _ hget call.argument
        exact follow_follows hnested hc (hsteady.tracks N)
          (hsteady.asksWithin bound (ht call hvalue))
  | .combinator sign => exact .throw hc

/-- Whether a draft with a given plan bears its names and is another one when they are dropped. -/
def DraftFollows (plan : MatcherId) (N : Naming) (d d' : Draft) : Prop :=
  d' = d.unnamed ∧ d.Fits N ∧ d.plan = plan

lemma addCombinator_follows (hc : c.Coherent registry N) {d : Draft} (hd : d.Fits N)
    (sign : Combinator) :
    (CompileCaches.ledger registry).Follows N c (d.addCombinator sign c)
      (.ok (Plain.addCombinator d.unnamed sign)) (DraftFollows d.plan) := by
  have hended := hd.endStage
  rw [Plain.addCombinator, Draft.addCombinator]
  rw [← Draft.unnamed_endStage, Draft.tests_unnamed_isEmpty]
  split
  · exact .pure hc ⟨(Draft.unnamed_lead _ sign).symm, hended.lead sign, Draft.plan_endStage d⟩
  · rw [freshId_bind]
    intro hlt
    obtain ⟨hgrows, hcoherent⟩ := assign_next hc hlt
      (.walk (.conjunction d.endStage.tests) (lastStage d.endStage.plan d.endStage.stages.length))
    refine ⟨_, hgrows, hcoherent, (Draft.unnamed_relate _ sign _).symm, ?_, Draft.plan_endStage d⟩
    exact (hended.mono hgrows.keeps).relate sign (Naming.assign_self _ _ _)

lemma addToken_combinator (nested : String → Compile Compiled) (d : Draft) {t : Token}
    {sign : Combinator} (h : t.value = .combinator sign) :
    addToken registry nested d t = d.addCombinator sign := by
  rw [addToken, h]

lemma addToken_simple (nested : String → Compile Compiled) (d : Draft) {t : Token}
    (h : ∀ sign, t.value ≠ .combinator sign) :
    addToken registry nested d t = (do return d.addMatcher (← simple registry nested t.value)) := by
  unfold addToken
  split
  · exact absurd ‹_› (h _)
  · rfl

lemma addToken_follows (hregistry : registry.Steady)
    (hnested : Compiles registry bound nested plain) (hc : c.Coherent registry N) {d : Draft}
    (hd : d.Fits N) {t : Token} (ht : t.Within bound) :
    (CompileCaches.ledger registry).Follows N c (addToken registry nested d t c)
      (Plain.addToken registry plain d.unnamed t) (DraftFollows d.plan) := by
  by_cases hsign : ∃ sign, t.value = .combinator sign
  · obtain ⟨sign, hsign⟩ := hsign
    rw [addToken_combinator nested d hsign, Plain.addToken_combinator plain _ hsign]
    exact addCombinator_follows hc hd sign
  · have hsimple : ∀ sign, t.value ≠ .combinator sign := fun sign h => hsign ⟨sign, h⟩
    rw [addToken_simple nested d hsimple, Plain.addToken_simple plain _ hsimple]
    refine (simple_follows hregistry hnested hc ht).bind (fun _ => .pure _)
      fun {m m' c' N'} hgrows hc' hm => .pure hc' ?_
    obtain ⟨rfl, hm⟩ := hm
    exact ⟨(Draft.unnamed_addMatcher d m).symm, (hd.mono hgrows.keeps).addMatcher hm,
      Draft.plan_addMatcher d m⟩

lemma foldlM_follows (hregistry : registry.Steady)
    (hnested : Compiles registry bound nested plain) :
    ∀ {ts : List Token} {N : Naming} {c : CompileCaches} {d : Draft}, c.Coherent registry N →
      d.Fits N → (∀ t ∈ ts, t.Within bound) →
      (CompileCaches.ledger registry).Follows N c (ts.foldlM (addToken registry nested) d c)
        (ts.foldlM (Plain.addToken registry plain) d.unnamed) (DraftFollows d.plan)
  | [], _, _, _, hc, hd, _ => .pure hc ⟨rfl, hd, rfl⟩
  | t :: rest, N, c, d, hc, hd, hts => by
    rw [List.foldlM_cons, List.foldlM_cons]
    refine (addToken_follows hregistry hnested hc hd (hts t (by simp))).bind
      (fun _ => .foldlM (addToken_adds hnested.1) rest _) fun {a b c' N'} _ hc' hab => ?_
    obtain ⟨rfl, ha, hplan⟩ := hab
    rw [← hplan]
    exact foldlM_follows hregistry hnested hc' ha fun u hu => hts u (by simp [hu])

def ClauseFollows (N : Naming) (a b : Test ⊕ Plan) : Prop :=
  b = unnamedClause a ∧ ClauseFits N a

lemma clause_follows (hregistry : registry.Steady)
    (hnested : Compiles registry bound nested plain) (hc : c.Coherent registry N) {ts : Clause}
    (hts : ∀ t ∈ ts, t.Within bound) :
    (CompileCaches.ledger registry).Follows N c (clause registry nested ts c)
      (Plain.clause registry plain ts) ClauseFollows := by
  obtain ⟨hgrows, hcoherent⟩ := reserve_next hc
  have hfold := foldlM_follows hregistry hnested hcoherent
    (Draft.fits_start N (.ofNat (c.named + 1))) hts
  rw [Draft.unnamed_start] at hfold
  rw [clause, freshId_bind, Plain.clause]
  refine .bind_from hgrows hfold (fun _ => .pure _) fun {d d' c' N'} hgrows' hcoherent' hd hlt => ?_
  obtain ⟨rfl, hd, hplan⟩ := hd
  have hle : c.named + 1 ≤ c'.named := hgrows'.le
  have hid := toNat_ofNat_named (Nat.lt_of_le_of_lt hle hlt)
  have hnone : N' (.ofNat (c.named + 1)) = none :=
    Classical.byContradiction fun hsome => by
      have := hgrows'.fresh (fresh_name hc (Nat.lt_of_le_of_lt hle hlt)) hsome
      rw [hid] at this
      exact Nat.lt_irrefl _ this
  have hstart := hgrows.trans hgrows'
  have hname := Draft.unnamed_finish d ts.leadsWithSibling
  cases hfinish : d.finish ts.leadsWithSibling with
  | inl t =>
    have hfits := hd.finish ts.leadsWithSibling (by simp [hfinish])
    rw [hfinish] at hname hfits
    exact fun _ => ⟨N', hstart, hcoherent', hname.symm, hfits⟩
  | inr plan =>
    obtain ⟨hgiven, hkept⟩ := assign_reserved hstart hcoherent' hnone (by omega) (by omega)
      (.plan plan)
    have hfits := (hd.mono (Naming.assign_extends hnone (.plan plan))).finish ts.leadsWithSibling
      fun made hmade => by
        obtain rfl := Sum.inr.inj (hfinish.symm.trans hmade)
        rw [hplan]
        exact Naming.assign_self _ _ _
    rw [hfinish] at hname hfits
    exact fun _ => ⟨_, hgiven, hkept, hname.symm, hfits⟩

def SortedFollows (N : Naming) (a b : List Test × List Plan) : Prop :=
  b = (a.1.map Test.unnamed, a.2.map Plan.unnamed) ∧ fitAll N a.1 none ∧ fitPlans N a.2

lemma clauses_follows (hregistry : registry.Steady)
    (hnested : Compiles registry bound nested plain) :
    ∀ {cs : List Clause} {N : Naming} {c : CompileCaches}, c.Coherent registry N →
      (∀ ts ∈ cs, ∀ t ∈ ts, t.Within bound) →
      (CompileCaches.ledger registry).Follows N c (clauses registry nested cs c)
        (Plain.clauses registry plain cs) SortedFollows
  | [], _, _, hc, _ => .pure hc ⟨rfl, trivial, trivial⟩
  | ts :: rest, N, c, hc, hcs => by
    rw [clauses, Plain.clauses]
    refine (clause_follows hregistry hnested hc (hcs ts (by simp))).bind (fun first => ?_)
      fun {first first' c₁ N₁} _ hc₁ hfirst => ?_
    · refine (clauses_adds hnested.1 rest).bind fun _ => ?_
      cases first <;> exact .pure _
    · refine (clauses_follows hregistry hnested hc₁ fun us hus => hcs us (by simp [hus])).bind
        (fun _ => ?_) fun {others others' c₂ N₂} hgrows hc₂ hothers => ?_
      · cases first <;> exact .pure _
      · obtain ⟨rfl, hfits⟩ := hfirst
        obtain ⟨rfl, htests, hplans⟩ := hothers
        cases first with
        | inl t => exact .pure hc₂ ⟨rfl, ⟨Test.Fits.mono hgrows.keeps t none hfits, htests⟩, hplans⟩
        | inr plan => exact .pure hc₂ ⟨rfl, htests, Plan.Fits.mono hgrows.keeps plan hfits, hplans⟩

lemma selectorList_follows (hregistry : registry.Steady)
    (hnested : Compiles registry bound nested plain) (hc : c.Coherent registry N)
    {list : SelectorList} (hlist : ∀ ts ∈ list.clauses, ∀ t ∈ ts, t.Within bound) :
    (CompileCaches.ledger registry).Follows N c (selectorList registry nested list c)
      (Plain.selectorList registry plain list) CompiledFollows := by
  rw [selectorList, Plain.selectorList]
  refine (clauses_follows hregistry hnested hc hlist).bind (fun _ => .pure _)
    fun {sorted sorted' c' N'} _ hc' hsorted => .pure hc' ?_
  obtain ⟨rfl, htests, hplans⟩ := hsorted
  obtain ⟨tests, plans⟩ := sorted
  cases tests with
  | nil => exact ⟨by simp [Compiled.unnamed], trivial, hplans⟩
  | cons t rest =>
    exact ⟨by simp [Compiled.unnamed, disjunction_unnamed], disjunction_fits htests,
      hplans⟩

end

def IssuedFollows (N : Naming) (s : Issued Compiled) (b : Compiled) : Prop :=
  CompiledFollows N s.value b

/-- What compiles selectors within selectors. -/
def nestedWithin (registry : Registry) (depth : Nat) (inner : String) : Compile Compiled := do
  return (← textWithin registry depth inner).value

lemma nestedWithin_adds (depth : Nat) (inner : String) :
    (CompileCaches.ledger registry).Adds (nestedWithin registry depth inner) :=
  (textWithin_adds registry depth inner).bind fun _ => .pure _

lemma compiles_of_follows {bound depth : Nat} (hle : bound ≤ depth)
    (h : ∀ {text : String} {N : Naming} {c : CompileCaches}, text.length < depth →
      c.Coherent registry N → (CompileCaches.ledger registry).Follows N c
        (textWithin registry depth text c) (registry.plain text) IssuedFollows) :
    Compiles registry bound (nestedWithin registry depth) registry.plain := by
  refine ⟨nestedWithin_adds depth, fun inner hinner {N c} hc => ?_⟩
  have hfollows := (h (Nat.lt_of_lt_of_le hinner hle) hc).map (g := Issued.value) (h := id)
    fun {N' a b} hab => (hab : CompiledFollows N' a.value b)
  rwa [Except.map_id] at hfollows

/-- From coherent caches a text compiles to what it compiles to plainly. -/
theorem textWithin_follows (hregistry : registry.Steady) :
    ∀ {depth : Nat} {text : String} {N : Naming} {c : CompileCaches}, text.length < depth →
      c.Coherent registry N →
      (CompileCaches.ledger registry).Follows N c (textWithin registry depth text c)
        (registry.plain text) IssuedFollows
  | 0, _, _, _, hlt, _ => absurd hlt (Nat.not_lt_zero _)
  | depth + 1, text, N, c, hlt, hc => by
    have hlooked : CompileCaches.Coherent registry N
        { c with compiled := (c.compiled.get text).2 } :=
      ⟨hc.tokens, hc.classes, hc.compiled, hc.named⟩
    rw [textWithin, modifyGet_bind]
    dsimp only
    cases hget : (c.compiled.get text).1 with
    | some selector =>
      obtain ⟨hplain, hfits⟩ := hc.compiled (text, selector) (BoundedCache.mem_of_get hget)
      rw [show registry.plain text = .ok selector.value.unnamed from hplain]
      exact Follows.ok hlooked rfl ⟨rfl, hfits⟩
    | none =>
      have hnested : Compiles registry text.length (nestedWithin registry depth) registry.plain :=
        compiles_of_follows (Nat.le_of_lt_succ hlt) (textWithin_follows hregistry)
      dsimp only
      rw [Plain.plain_eq hregistry text]
      have hsame : N.Grows c.named N c.named := .refl N _
      refine Follows.after hsame ((tokenize_follows hlooked text).given.bind (fun list => ?_)
        fun {list list' c₁ N₁} _ hc₁ hlist => ?_)
      · refine (selectorList_adds hnested.1 list.value).bind fun made => ?_
        refine (issue_adds made).bind fun issued => ?_
        exact (Ledger.Adds.modify fun _ => Nat.le_refl _).bind fun _ => .pure issued
      · obtain ⟨rfl, hparse⟩ := hlist
        have hlist := SelectorList.parse_within hparse
        have hmade := (selectorList_follows hregistry hnested hc₁ hlist).given.bind
          (h := fun made => .ok made) (S := IssuedFollows)
          (g := fun made => do
            let selector ← issue made
            modify fun c => { c with compiled := c.compiled.insert text selector }
            return selector) (fun made => ?_) fun {made made' c₂ N₂} _ hc₂ hmade => ?_
        · have hid : ∀ e : Except SelectorError Compiled, (e >>= fun made => .ok made) = e :=
            fun e => by cases e <;> rfl
          rwa [hid] at hmade
        · refine (issue_adds made).bind fun issued => ?_
          exact (Ledger.Adds.modify fun _ => Nat.le_refl _).bind fun _ => .pure issued
        · obtain ⟨⟨rfl, hfits⟩, hplain⟩ := hmade
          rw [issue_bind, modify_bind]
          refine Follows.ok ⟨hc₂.tokens, hc₂.classes, fun entry hentry => ?_, hc₂.named⟩ rfl
            ⟨rfl, hfits⟩
          obtain rfl | hold := BoundedCache.mem_of_mem_insert hentry
          · refine ⟨?_, hfits⟩
            rw [Plain.plain_eq hregistry, hparse]
            exact hplain
          · exact hc₂.compiled entry hold

lemma compiles_nestedWithin (hregistry : registry.Steady) {bound depth : Nat}
    (hle : bound ≤ depth) :
    Compiles registry bound (nestedWithin registry depth) registry.plain :=
  compiles_of_follows hle (textWithin_follows hregistry)

lemma text_follows (hregistry : registry.Steady) (hc : c.Coherent registry N) (text : String) :
    (CompileCaches.ledger registry).Follows N c (Compile.text registry text c) (registry.plain text)
      IssuedFollows :=
  textWithin_follows hregistry (Nat.lt_succ_self _) hc

end Compile

end TreeQuery
