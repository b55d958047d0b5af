import TreeQuery.Proofs.Compile.Depth
import TreeQuery.Proofs.Compile.Entries
import TreeQuery.Proofs.Compile.Ledger

/-!
# Coherent caches

Caches are coherent with a naming when every entry is what its text stands for and every compiled
selector bears the names that it was given. A compilation from coherent caches gives what the text
compiles to, or the same error, and leaves coherent caches with more names; what names stood for
before they stand for still.
-/

namespace TreeQuery

def Naming.assign (N : Naming) (id : MatcherId) (named : Named) : Naming :=
  fun other => if other = id then some named else N other

lemma Naming.assign_self (N : Naming) (id : MatcherId) (named : Named) :
    N.assign id named id = some named := by
  simp [assign]

lemma Naming.assign_extends {N : Naming} {id : MatcherId} (h : N id = none) (named : Named) :
    (N.assign id named).Extends N := by
  intro other found hfound
  have hne : other ≠ id := by
    rintro rfl
    rw [h] at hfound
    simp at hfound
  simpa [assign, hne] using hfound

/-- Whether every entry is what its text stands for, and every name has been given. -/
structure CompileCaches.Coherent [PatternLibrary] (registry : Registry) (N : Naming) (c : CompileCaches) :
    Prop where
  tokens : ∀ entry ∈ c.tokens.entries, SelectorList.parse entry.1 = .ok entry.2.value
  classes : ∀ entry ∈ c.classes.entries, ClassPattern.build entry.1 = .ok entry.2.value
  compiled : ∀ entry ∈ c.compiled.entries,
    registry.plain entry.1 = .ok entry.2.value.unnamed ∧ entry.2.value.Fits N
  named : ∀ {id found}, N id = some found → id.toNat ≤ c.named

namespace CompileCaches

variable [PatternLibrary]

lemma Coherent.clear {registry : Registry} {N : Naming} {c : CompileCaches}
    (h : c.Coherent registry N) : c.clear.Coherent registry N where
  tokens entry hentry := by simp [CompileCaches.clear] at hentry
  classes entry hentry := by simp [CompileCaches.clear] at hentry
  compiled entry hentry := by simp [CompileCaches.clear] at hentry
  named := h.named

lemma coherent_empty (registry : Registry) (capacities : CacheCapacities) :
    (empty capacities).Coherent registry fun _ => none where
  tokens entry hentry := by simp [CompileCaches.empty] at hentry
  classes entry hentry := by simp [CompileCaches.empty] at hentry
  compiled entry hentry := by simp [CompileCaches.empty] at hentry
  named hid := nomatch hid

end CompileCaches

/-- Caches count the names that were given, and are sound when they are coherent. -/
def CompileCaches.ledger [PatternLibrary] (registry : Registry) : Ledger CompileCaches :=
  ⟨CompileCaches.named, CompileCaches.Coherent registry⟩

namespace Compile

lemma modifyGet_bind {α β : Type} (f : CompileCaches → α × CompileCaches) (g : α → Compile β)
    (c : CompileCaches) : ((modifyGet f : Compile α) >>= g) c = g (f c).1 (f c).2 :=
  rfl

lemma modify_bind {β : Type} (f : CompileCaches → CompileCaches) (g : Unit → Compile β)
    (c : CompileCaches) : ((modify f : Compile Unit) >>= g) c = g () (f c) :=
  rfl

lemma issue_bind {α β : Type} (value : α) (g : Issued α → Compile β) (c : CompileCaches) :
    (issue value >>= g) c = g ⟨value, c.issued⟩ { c with issued := c.issued + 1 } :=
  rfl

lemma freshId_bind {β : Type} (g : MatcherId → Compile β) (c : CompileCaches) :
    (freshId >>= g) c = g (.ofNat (c.named + 1)) { c with named := c.named + 1 } :=
  rfl

lemma liftExcept_bind {α β : Type} (value : Except SelectorError α) (g : α → Compile β)
    (c : CompileCaches) :
    ((liftM value : Compile α) >>= g) c =
      match value with
      | .ok a => g a c
      | .error e => (.error e, c) := by
  cases value <;> rfl

lemma keep_leaves {α : Type} {plain : Except SelectorError α}
    {keep : Issued α → CompileCaches → CompileCaches}
    (hkeep : ∀ made c, (keep made c).named = c.named ∧ (keep made c).compiled = c.compiled)
    (c : CompileCaches) :
    let left := ((do
      let made ← issue (← plain)
      modify (keep made)
      return made : Compile (Issued α)) c).2
    left.named = c.named ∧ left.compiled = c.compiled := by
  rw [liftExcept_bind]
  cases plain with
  | error e => exact ⟨rfl, rfl⟩
  | ok a => exact hkeep ⟨a, c.issued⟩ { c with issued := c.issued + 1 }

/-- A list that is read is given no name, and no compiled selector comes or goes with it. -/
theorem tokenize_leaves (text : String) (c : CompileCaches) :
    (tokenize text c).2.named = c.named ∧ (tokenize text c).2.compiled = c.compiled := by
  rw [tokenize, modifyGet_bind]
  dsimp only
  cases (c.tokens.get text).1 with
  | some list => exact ⟨rfl, rfl⟩
  | none =>
    refine keep_leaves (fun _ _ => ?_) _
    exact ⟨rfl, rfl⟩

variable [PatternLibrary]

theorem classPattern_leaves (word : String) (c : CompileCaches) :
    (classPattern word c).2.named = c.named ∧ (classPattern word c).2.compiled = c.compiled := by
  rw [classPattern, modifyGet_bind]
  dsimp only
  cases (c.classes.get word).1 with
  | some pattern => exact ⟨rfl, rfl⟩
  | none =>
    refine keep_leaves (fun _ _ => ?_) _
    exact ⟨rfl, rfl⟩

section

variable {registry : Registry}

lemma freshId_adds : (CompileCaches.ledger registry).Adds freshId := fun _ => Nat.le_succ _

lemma issue_adds {α : Type} (value : α) : (CompileCaches.ledger registry).Adds (issue value) :=
  fun _ => Nat.le_refl _

lemma tokenize_adds (text : String) : (CompileCaches.ledger registry).Adds (tokenize text) :=
  fun c => Nat.le_of_eq (tokenize_leaves text c).1.symm

lemma classPattern_adds (word : String) :
    (CompileCaches.ledger registry).Adds (classPattern word) :=
  fun c => Nat.le_of_eq (classPattern_leaves word c).1.symm

variable {nested : String → Compile Compiled}
  (hnested : ∀ text, (CompileCaches.ledger registry).Adds (nested text))
include hnested

lemma follow_adds : ∀ r : Recipe, (CompileCaches.ledger registry).Adds (follow nested r)
  | .ready matcher => .pure matcher
  | .reject e => .throw e
  | .compile text next => (hnested text).bind fun c => follow_adds (next c)

lemma simple_adds (value : TokenValue) :
    (CompileCaches.ledger registry).Adds (simple registry nested value) := by
  unfold simple
  split
  · exact .pure _
  · exact .pure _
  · exact (classPattern_adds _).bind fun _ => .pure _
  · exact .pure _
  · exact .pure _
  · split
    · exact .pure _
    · exact follow_adds hnested _
    · exact .throw _
  · exact .throw _

lemma addToken_adds (draft : Draft) (token : Token) :
    (CompileCaches.ledger registry).Adds (addToken registry nested draft token) := by
  unfold addToken
  split
  · unfold Draft.addCombinator
    dsimp only
    split
    · exact .pure _
    · exact freshId_adds.bind fun _ => .pure _
  · exact (simple_adds hnested _).bind fun _ => .pure _

lemma clause_adds (c : Clause) :
    (CompileCaches.ledger registry).Adds (clause registry nested c) :=
  freshId_adds.bind fun _ =>
    (Ledger.Adds.foldlM (addToken_adds hnested) c _).bind fun _ => .pure _

lemma clauses_adds : ∀ cs : List Clause,
    (CompileCaches.ledger registry).Adds (clauses registry nested cs)
  | [] => .pure _
  | c :: rest => by
    refine (clause_adds hnested c).bind fun compiled => (clauses_adds rest).bind fun others => ?_
    cases compiled <;> exact .pure _

lemma selectorList_adds (list : SelectorList) :
    (CompileCaches.ledger registry).Adds (selectorList registry nested list) :=
  (clauses_adds hnested list.clauses).bind fun _ => .pure _

end

lemma textWithin_adds (registry : Registry) : ∀ (depth : Nat) (text : String),
    (CompileCaches.ledger registry).Adds (textWithin registry depth text)
  | 0, text => .throw _
  | depth + 1, text => by
    refine (Ledger.Adds.modifyGet fun _ => Nat.le_refl _).bind fun found => ?_
    cases found with
    | some selector => exact .pure selector
    | none =>
      have hnested : ∀ inner, (CompileCaches.ledger registry).Adds
          (do return (← textWithin registry depth inner).value) :=
        fun inner => (textWithin_adds registry depth inner).bind fun _ => .pure _
      refine (tokenize_adds text).bind fun list => (selectorList_adds hnested _).bind fun c => ?_
      refine (issue_adds c).bind fun issued => ?_
      exact (Ledger.Adds.modify fun _ => Nat.le_refl _).bind fun _ => .pure issued

end Compile

end TreeQuery
