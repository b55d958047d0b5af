import TreeQuery.Proofs.Tree.Siblings
import TreeQuery.Proofs.Matching.Ranks
import TreeQuery.Compile.Compiler
import TreeQuery.Proofs.Tree.Orderly

/-!
# Places and positions

One pass over the children of a node counts, for each of them, the elements before it and behind it
and those with its tag. What it counts for an element are the places of the element among its
siblings, and a structural position asks for such a place. Ranks are remembered from one test to the
next; a test comes to the same answer with any memo that earlier tests left behind.
-/

namespace TreeQuery

/-- A rank is accepted if and only if it is `a n + b` for some natural number `n`. -/
theorem StructuralPosition.accepts_iff {p : StructuralPosition} {rank : Int} :
    p.accepts rank = true ↔ ∃ k : Nat, p.a * k + p.b = rank := by
  unfold accepts
  by_cases ha : p.a = 0
  · simp only [ha, if_true, decide_eq_true_eq, Int.zero_mul, Int.zero_add, exists_const]
    omega
  · simp only [ha, if_false, Bool.and_eq_true, decide_eq_true_eq]
    constructor
    · rintro ⟨hmod, hdiv⟩
      obtain ⟨q, hq⟩ := Int.dvd_of_tmod_eq_zero hmod
      rw [hq, Int.mul_tdiv_cancel_left q ha] at hdiv
      exact ⟨q.toNat, by rw [Int.toNat_of_nonneg hdiv]; omega⟩
    · rintro ⟨k, hk⟩
      have hdifference : rank - p.b = p.a * k := by omega
      rw [hdifference, Int.mul_tmod_right, Int.mul_tdiv_cancel_left _ ha]
      exact ⟨rfl, Int.natCast_nonneg k⟩

section Counts

/-- How often a tag has been counted. -/
def countOf (tag : String) : List (String × Nat) → Nat
  | [] => 0
  | (t, count) :: rest => if t = tag then count else countOf tag rest

lemma countTag_eq (tag : String) (counts : List (String × Nat)) :
    (countTag tag counts).2 = countOf tag counts + 1 ∧
      ∀ t, countOf t (countTag tag counts).1 = countOf t counts + if tag = t then 1 else 0 := by
  induction counts with
  | nil => exact ⟨rfl, fun t => by simp [countTag, countOf]⟩
  | cons entry rest ih =>
    obtain ⟨k, count⟩ := entry
    obtain ⟨hcount, hcounts⟩ := ih
    by_cases hk : k = tag
    · subst hk
      refine ⟨by simp [countTag, countOf], fun t => ?_⟩
      by_cases ht : k = t <;> simp [countTag, countOf, ht]
    · refine ⟨by simp [countTag, countOf, hk, hcount], fun t => ?_⟩
      by_cases ht : k = t
      · subst ht
        simp [countTag, countOf, hk, Ne.symm hk]
      · simp [countTag, countOf, hk, ht, hcounts]

lemma occurrences_cons (counts : List (String × Nat)) (tag : String) (rest : List String) :
    occurrences counts (tag :: rest) =
      (countTag tag counts).2 :: occurrences (countTag tag counts).1 rest :=
  rfl

/-- A tag is counted once more than it stands among the tags before it. -/
theorem occurrences_append (counts : List (String × Nat)) (before : List String) (tag : String)
    (after : List String) :
    ∃ counts', occurrences counts (before ++ tag :: after) =
      occurrences counts before ++
        (countOf tag counts + before.count tag + 1) :: occurrences counts' after := by
  induction before generalizing counts with
  | nil =>
    refine ⟨(countTag tag counts).1, ?_⟩
    rw [List.nil_append, occurrences_cons, (countTag_eq tag counts).1]
    rfl
  | cons t before ih =>
    obtain ⟨counts', hrest⟩ := ih (countTag t counts).1
    refine ⟨counts', ?_⟩
    rw [List.cons_append, occurrences_cons, hrest, occurrences_cons, List.cons_append,
      (countTag_eq t counts).2 tag, List.count_cons]
    simp [Nat.add_assoc, Nat.add_comm, Nat.add_left_comm]

lemma getElem?_occurrences (before : List String) (tag : String) (after : List String) :
    (occurrences [] (before ++ tag :: after))[before.length]? = some (before.count tag + 1) := by
  obtain ⟨counts, heq⟩ := occurrences_append [] before tag after
  rw [heq, List.getElem?_append_right (Nat.le_of_eq (length_occurrences _ _)), length_occurrences]
  simp [countOf]

lemma getElem?_reverse_occurrences (before : List String) (tag : String) (after : List String) :
    (occurrences [] (before ++ tag :: after).reverse).reverse[before.length]? =
      some (after.count tag + 1) := by
  have hlength : (occurrences [] (before ++ tag :: after).reverse).length =
      before.length + after.length + 1 := by
    rw [length_occurrences, List.length_reverse]
    simp [Nat.add_assoc]
  have hplace : before.length + after.length + 1 - 1 - before.length = after.reverse.length := by
    rw [List.length_reverse]
    omega
  have hread := getElem?_occurrences after.reverse tag before.reverse
  rw [List.getElem?_reverse (by omega), hlength, hplace]
  simpa using hread

/-- The rank of a child counts the children before it and behind it. -/
theorem mem_rankSiblings (before after : List (NodeId × String)) (n : NodeId) (tag : String) :
    (n, ⟨before.length + 1, after.length + 1, (before.map (·.2)).count tag + 1,
      (after.map (·.2)).count tag + 1⟩) ∈ rankSiblings (before ++ (n, tag) :: after) := by
  refine List.mem_iff_getElem?.mpr ⟨before.length, ?_⟩
  have hforward := getElem?_occurrences (before.map (·.2)) tag (after.map (·.2))
  have hbackward := getElem?_reverse_occurrences (before.map (·.2)) tag (after.map (·.2))
  rw [List.length_map] at hforward hbackward
  simp only [rankSiblings, List.map_append, List.map_cons, List.getElem?_mapIdx, List.zip,
    List.getElem?_zipWith, hforward, hbackward]
  simp

end Counts

namespace Document

lemma tagKey_eq_iff {d : Document} {xml : Bool} {n k : NodeId} (hn : d.isElement n = true)
    (hk : d.isElement k = true) : d.tagKey xml k = d.tagKey xml n ↔ d.sameTag xml n k = true := by
  obtain ⟨e, he⟩ := Option.isSome_iff_exists.mp hn
  obtain ⟨e', he'⟩ := Option.isSome_iff_exists.mp hk
  have hname : d.localName n = some e.name := by rw [localName, he]; rfl
  have hname' : d.localName k = some e'.name := by rw [localName, he']; rfl
  cases xml <;> simp [tagKey, sameTag, hname, hname', sameName, equalFolded]

/-- Counting tags is counting the elements with the tag. -/
theorem count_tagKey {d : Document} (xml : Bool) {n : NodeId} (hn : d.isElement n = true)
    (nodes : List NodeId) :
    ((nodes.filter d.isElement).map (d.tagKey xml)).count (d.tagKey xml n) =
      (nodes.filter fun k => d.isElement k && d.sameTag xml n k).length := by
  rw [List.count, List.countP_map, ← List.countP_eq_length_filter, List.countP_filter]
  refine List.countP_congr fun k _ => ?_
  by_cases hk : d.isElement k = true
  · simp [hk, tagKey_eq_iff hn hk]
  · simp [hk]

namespace IsForest

variable {d : Document} (h : d.IsForest) {n : NodeId} (helem : d.isElement n = true)
include h helem

/-- The rank of an element is made of its four places. -/
theorem siblingRank_eq_place (xml : Bool) (hparent : (d.parent n).isSome) :
    d.siblingRank xml n = some ⟨d.place xml false false n, d.place xml false true n,
      d.place xml true false n, d.place xml true true n⟩ := by
  obtain ⟨p, hp⟩ := Option.isSome_iff_exists.mp hparent
  obtain ⟨before, after, hc⟩ := h.exists_split hp
  refine h.siblingRank_of_mem (p := p) ?_
  have hmem := mem_rankSiblings ((before.filter d.isElement).map fun k => (k, d.tagKey xml k))
    ((after.filter d.isElement).map fun k => (k, d.tagKey xml k)) n (d.tagKey xml n)
  rw [childRanks, hc, List.filter_append, List.filter_cons_of_pos helem, List.map_append,
    List.map_cons]
  simp only [h.place_eq hc helem, List.length_map, List.map_map, Function.comp_def] at hmem ⊢
  simpa only [count_tagKey xml helem, Bool.not_false, Bool.not_true, Bool.true_or, Bool.false_or,
    Bool.and_true, if_true, if_false, Bool.false_eq_true] using hmem

end IsForest

end Document

namespace Scope

lemma filter_sameKind (s : Scope) (ofType : Bool) (n : NodeId) (nodes : List NodeId) :
    (nodes.filter s.document.isElement).filter (s.sameKind ofType n) =
      nodes.filter fun k =>
        s.document.isElement k && (!ofType || s.document.sameTag s.xml n k) := by
  rw [List.filter_filter]
  exact List.filter_congr fun k _ => Bool.and_comm _ _

/-- Whether an element stands at a position, told from its places among its element siblings. -/
def Occupies (s : Scope) (p : StructuralPosition) (n : NodeId) : Prop :=
  let place (fromEnd : Bool) := s.document.place s.xml p.ofType fromEnd n
  (s.document.parent n).isSome ∧
    match p.position with
    | .first => place false = 1
    | .last => place true = 1
    | .only => place false = 1 ∧ place true = 1
    | .nth => ∃ k : Nat, p.a * k + p.b = place false
    | .nthLast => ∃ k : Nat, p.a * k + p.b = place true

lemma place_eq_one_iff {place : Nat} : place = 1 ↔ ∃ k : Nat, (0 : Int) * k + 1 = place :=
  ⟨fun hplace => ⟨0, by omega⟩, fun ⟨k, hk⟩ => by omega⟩

lemma occupies_first {s : Scope} {ofType : Bool} {a b : Int} {n : NodeId} :
    s.Occupies ⟨.first, ofType, a, b⟩ n ↔ s.Occupies ⟨.nth, ofType, 0, 1⟩ n :=
  and_congr_right fun _ => place_eq_one_iff

lemma occupies_last {s : Scope} {ofType : Bool} {a b : Int} {n : NodeId} :
    s.Occupies ⟨.last, ofType, a, b⟩ n ↔ s.Occupies ⟨.nthLast, ofType, 0, 1⟩ n :=
  and_congr_right fun _ => place_eq_one_iff

lemma occupies_every {s : Scope} {ofType : Bool} {n : NodeId} :
    s.Occupies ⟨.nth, ofType, 1, 0⟩ n ↔ (s.document.parent n).isSome = true :=
  and_iff_left ⟨s.document.place s.xml ofType false n, by simp⟩

variable {s : Scope} (h : s.document.IsForest) {n : NodeId} (helem : s.document.isElement n = true)
include h helem

/-- A walk back comes by no peer of the first one. -/
theorem isFirst_iff (hparent : (s.document.parent n).isSome) (ofType : Bool) :
    s.isFirst ofType n = true ↔ s.document.place s.xml ofType false n = 1 := by
  obtain ⟨p, hp⟩ := Option.isSome_iff_exists.mp hparent
  obtain ⟨before, after, hc⟩ := h.exists_split hp
  have hlen := h.length_children_le p
  rw [hc, List.length_append] at hlen
  rw [isFirst, h.previousElement_eq hc, h.seek_previousElement hc (by omega), s.filter_sameKind,
    h.place_eq hc helem, Option.isNone_iff_eq_none, List.getLast?_eq_none_iff,
    ← List.length_eq_zero_iff]
  simp only [if_false, Bool.false_eq_true]
  omega

/-- A walk forward comes by no peer of the last one. -/
theorem isLast_iff (hparent : (s.document.parent n).isSome) (ofType : Bool) :
    s.isLast ofType n = true ↔ s.document.place s.xml ofType true n = 1 := by
  obtain ⟨p, hp⟩ := Option.isSome_iff_exists.mp hparent
  obtain ⟨before, after, hc⟩ := h.exists_split hp
  have hc' : s.document.children p = (before ++ [n]) ++ after := by simpa using hc
  have hlen := h.length_children_le p
  rw [hc, List.length_append, List.length_cons] at hlen
  rw [isLast, h.nextElement_eq hc, h.seek_nextElement hc' (by omega), s.filter_sameKind,
    h.place_eq hc helem, Option.isNone_iff_eq_none, List.head?_eq_none_iff,
    ← List.length_eq_zero_iff]
  simp only [if_true]
  omega

/-- The counted rank of an element is its place. -/
theorem accepts_rank_iff (hparent : (s.document.parent n).isSome) {p : StructuralPosition} :
    ((s.document.siblingRank s.xml n).any fun rank => p.accepts (rank.forPosition p)) = true ↔
      ∃ k : Nat, p.a * k + p.b = s.document.place s.xml p.ofType p.fromEnd n := by
  rw [h.siblingRank_eq_place helem s.xml hparent, Option.any_some, StructuralPosition.accepts_iff]
  cases hofType : p.ofType <;> cases hfromEnd : p.fromEnd <;>
    simp only [SiblingRank.forPosition, hofType, hfromEnd]

end Scope

/-- A position that not every child stands at is looked up among what the memo knows. -/
theorem Run.ranked_eq (s : Scope) {p : StructuralPosition} (hp : ¬(p.a = 1 ∧ p.b = 0))
    (n : NodeId) (m : Memo) :
    ranked s p n m =
      ((m.siblingRank s.document s.xml n).1.any fun rank => p.accepts (rank.forPosition p),
        (m.siblingRank s.document s.xml n).2) := by
  have hread : (modifyGet fun m => m.siblingRank s.document s.xml n : Run _) m =
      m.siblingRank s.document s.xml n :=
    rfl
  rw [ranked, if_neg hp, Run.bind_apply, hread]
  cases (m.siblingRank s.document s.xml n).1 <;> rfl

section Filters

variable {s : Scope} (hforest : s.document.IsForest) {m : Memo}
  (hm : m.RankHistory s.document s.xml)
include hforest hm

lemma Run.ranked_iff {n : NodeId} (helem : s.document.isElement n = true)
    (p : StructuralPosition) :
    ((ranked s p n m).1 = true ↔ (s.document.parent n).isSome ∧
      ∃ k : Nat, p.a * k + p.b = s.document.place s.xml p.ofType p.fromEnd n) ∧
      (ranked s p n m).2.RankHistory s.document s.xml := by
  by_cases hall : p.a = 1 ∧ p.b = 0
  · -- The position that every child stands at is not counted.
    rw [ranked, if_pos hall, hall.1, hall.2]
    exact ⟨⟨fun hsome => ⟨hsome, s.document.place s.xml p.ofType p.fromEnd n, by simp⟩,
      fun hsome => hsome.1⟩, hm⟩
  · have hvalue := ((hm.ranksHold hforest).siblingRank hforest n).1 helem
    rw [Run.ranked_eq s hall, hvalue]
    refine ⟨?_, hm.query n⟩
    cases hparent : s.document.parent n with
    | none => simp [Document.siblingRank, hparent]
    | some parent =>
      have hsome : (s.document.parent n).isSome = true := by rw [hparent]; rfl
      simpa using Scope.accepts_rank_iff hforest helem hsome

lemma structuralTest_iff {n : NodeId} (helem : s.document.isElement n = true)
    (p : StructuralPosition) :
    (((Compile.simple.structuralTest p).eval s n m).1 = true ↔ s.Occupies p n) ∧
      ((Compile.simple.structuralTest p).eval s n m).2.RankHistory s.document s.xml := by
  obtain ⟨position, ofType, a, b⟩ := p
  have hranked := Run.ranked_iff hforest hm helem ⟨position, ofType, a, b⟩
  cases position with
  | nth | nthLast => exact hranked
  | first | last | only =>
    refine ⟨?_, hm⟩
    change ((s.document.parent n).isSome && _) = true ↔ _
    rw [Bool.and_eq_true, Scope.Occupies]
    refine and_congr_right fun hparent => ?_
    simp only [Bool.and_eq_true, Scope.isFirst_iff hforest helem hparent,
      Scope.isLast_iff hforest helem hparent]

/-- What a memo remembers never shows. An element is accepted by a structural position if and only if
it has a parent and its place among its element siblings is the one that is asked for. So `first` is
the place `1`, `last` the place `1` from the end, and `n` every place. -/
theorem structural_accepts_places {n : NodeId} (helem : s.document.isElement n = true) :
    (∀ p,
      (∀ [PatternLibrary] registry nested, Compile.simple registry nested (.structural p) =
        pure (.test (Compile.simple.structuralTest p))) ∧
        (((Compile.simple.structuralTest p).eval s n m).1 = true ↔ s.Occupies p n) ∧
        ((Compile.simple.structuralTest p).eval s n m).2.RankHistory s.document s.xml) ∧
    (s.document.parent n = none →
      ∀ p, ((Compile.simple.structuralTest p).eval s n m).1 = false) ∧
    ∀ m' : Memo, m'.RankHistory s.document s.xml → ∀ ofType a b,
      ((Compile.simple.structuralTest ⟨.first, ofType, a, b⟩).eval s n m).1 =
        ((Compile.simple.structuralTest ⟨.nth, ofType, 0, 1⟩).eval s n m').1 ∧
      ((Compile.simple.structuralTest ⟨.last, ofType, a, b⟩).eval s n m).1 =
        ((Compile.simple.structuralTest ⟨.nthLast, ofType, 0, 1⟩).eval s n m').1 ∧
      ((Compile.simple.structuralTest ⟨.nth, ofType, 1, 0⟩).eval s n m).1 =
        (s.document.parent n).isSome := by
  refine ⟨fun p => ⟨fun _ _ => rfl, structuralTest_iff hforest hm helem p⟩,
    fun hparent p => ?_, fun m' hm' ofType a b => ⟨?_, ?_, ?_⟩⟩
  · rw [Bool.eq_false_iff, Ne, (structuralTest_iff hforest hm helem p).1]
    simp [Scope.Occupies, hparent]
  · rw [Bool.eq_iff_iff, (structuralTest_iff hforest hm helem _).1,
      (structuralTest_iff hforest hm' helem _).1, Scope.occupies_first]
  · rw [Bool.eq_iff_iff, (structuralTest_iff hforest hm helem _).1,
      (structuralTest_iff hforest hm' helem _).1, Scope.occupies_last]
  · rw [Bool.eq_iff_iff, (structuralTest_iff hforest hm helem _).1, Scope.occupies_every]

end Filters

/-- The memo here has asked about the first item in its last generation and then started again from
the first one. -/
theorem structural_accepts_places_wrapped :
    let s : Scope := ⟨Page.host ⟨Document.sample, 0, .indexed⟩, none, false⟩
    let first : Memo := { Memo.empty true 8 with generation := 0xFFFFFFFF }
    let m : Memo := (first.siblingRank s.document s.xml 2).2.bump
    m.generation = 1 ∧ s.document.isElement 3 = true ∧
      ((Compile.simple.structuralTest ⟨.nthLast, true, -2, 3⟩).eval s 3 m).1 = true ∧
      ((Compile.simple.structuralTest ⟨.first, false, 0, 0⟩).eval s 3 m).1 = false := by
  intro s first m
  have hforest : s.document.IsForest := Document.isForest_sample false
  have hm : m.RankHistory s.document s.xml :=
    .bump (.query (d := s.document) (.start rfl) 2) s.document s.xml
  have helem : s.document.isElement 3 = true := by decide +kernel
  obtain ⟨haccepts, -, -⟩ := structural_accepts_places hforest hm helem
  have hlast := (haccepts ⟨.nthLast, true, -2, 3⟩).2.1
  have hfirst := (haccepts ⟨.first, false, 0, 0⟩).2.1
  refine ⟨by decide +kernel, helem, hlast.mpr ⟨by decide +kernel, 1, by decide +kernel⟩, ?_⟩
  rw [Bool.eq_false_iff]
  intro hfound
  exact absurd (hfirst.mp hfound).2 (by decide +kernel)

end TreeQuery
