import Mathlib.Data.List.Induction
import TreeQuery.Proofs.Tree.Chain

/-!
# Forests

An arena is a forest when its links write down lists of children: the children of a node are the
nodes that have it for parent, each once, both directions of every link agree, and no node is above
itself. In a forest every walk ends, and a walk along siblings meets exactly the siblings before or
after a node.
-/

namespace TreeQuery

namespace Document

structure IsForest (d : Document) : Prop where
  mem_children : ∀ {p c}, c ∈ d.children p ↔ d.parent c = some p
  nodup_children : ∀ p, (d.children p).Nodup
  lastChild_eq : ∀ p, d.lastChild p = (d.children p).getLast?
  siblings : ∀ {p c before after}, d.children p = before ++ c :: after →
    d.previousSibling c = before.getLast? ∧ d.nextSibling c = after.head?
  orphan : ∀ {n}, d.parent n = none → d.previousSibling n = none ∧ d.nextSibling n = none
  acyclic : ∀ n, ¬ Relation.TransGen (Linked d.parent) n n

/-- Whether `e` is a sibling before `n`. -/
def IsBefore (d : Document) (e n : NodeId) : Prop :=
  ∃ p before mid after, d.children p = (before ++ e :: mid) ++ n :: after

/-- Whether `e` is an element before `n` among its siblings, with no element between them. -/
def IsClosestBefore (d : Document) (e n : NodeId) : Prop :=
  ∃ p before mid after, d.children p = (before ++ e :: mid) ++ n :: after ∧
    d.isElement e = true ∧ ∀ x ∈ mid, d.isElement x = false

variable {d : Document}

lemma lt_size_of_parent {c p : NodeId} (h : d.parent c = some p) : c < d.size := by
  by_contra hge
  have : d.nodes[c]? = none := Array.getElem?_eq_none (Nat.not_lt.mp hge)
  simp [parent, this] at h

lemma lt_size_of_isElement {n : NodeId} (h : d.isElement n = true) : n < d.size := by
  by_contra hge
  have : d.nodes[n]? = none := Array.getElem?_eq_none (Nat.not_lt.mp hge)
  simp [isElement, element, data, this] at h

lemma firstChild_none_of_ge {p : NodeId} (h : d.size ≤ p) : d.firstChild p = none := by
  have : d.nodes[p]? = none := Array.getElem?_eq_none h
  simp [firstChild, this]

lemma isElement_of_stepTo {direction : Direction} {n m : NodeId}
    (h : d.stepTo direction n = some m) : d.isElement m = true := by
  cases direction with
  | parent => exact (Option.filter_eq_some_iff.mp h).2
  | previousSibling => exact accept_of_seek h

namespace IsForest

variable (h : d.IsForest)
include h

lemma parent_lt_size {c p : NodeId} (hp : d.parent c = some p) : p < d.size := by
  by_contra hge
  have hmem := h.mem_children.mpr hp
  rw [children, firstChild_none_of_ge (Nat.not_lt.mp hge)] at hmem
  cases hs : d.size <;> simp [hs, siblingsFrom] at hmem

lemma length_children_le (p : NodeId) : (d.children p).length ≤ d.size := by
  have hsub : d.children p ⊆ List.range d.size := fun c hc =>
    List.mem_range.mpr (lt_size_of_parent (h.mem_children.mp hc))
  simpa using (List.subperm_of_subset (h.nodup_children p) hsub).length_le

lemma exists_split {c p : NodeId} (hp : d.parent c = some p) :
    ∃ before after, d.children p = before ++ c :: after :=
  List.append_of_mem (h.mem_children.mpr hp)

/-- A search back from a node asks the siblings before it, the closest first. -/
theorem seek_previous {accept : NodeId → Bool} {p : NodeId} {before after : List NodeId}
    {bound : Nat} (hc : d.children p = before ++ after) (hb : before.length ≤ bound) :
    seek d.previousSibling accept bound before.getLast? = (before.filter accept).getLast? := by
  induction before using List.reverseRecOn generalizing after bound with
  | nil => simp
  | append_singleton before x ih =>
    rw [List.length_append, List.length_singleton] at hb
    obtain ⟨bound, rfl⟩ : ∃ b, bound = b + 1 := ⟨bound - 1, by omega⟩
    have hx : d.children p = before ++ x :: after := by simpa using hc
    simp only [List.getLast?_concat, seek]
    by_cases hacc : accept x = true
    · simp [hacc]
    · rw [if_neg hacc, (h.siblings hx).1, ih hx (by omega)]
      simp [hacc]

/-- A search forward from a node asks the siblings after it, the closest first. -/
theorem seek_next {accept : NodeId → Bool} {p : NodeId} {before after : List NodeId}
    {bound : Nat} (hc : d.children p = before ++ after) (hb : after.length ≤ bound) :
    seek d.nextSibling accept bound after.head? = after.find? accept := by
  induction after generalizing before bound with
  | nil => simp
  | cons x after ih =>
    rw [List.length_cons] at hb
    obtain ⟨bound, rfl⟩ : ∃ b, bound = b + 1 := ⟨bound - 1, by omega⟩
    simp only [List.head?_cons, seek]
    by_cases hacc : accept x = true
    · simp [hacc]
    · rw [if_neg hacc, (h.siblings hc).2,
        ih (by simpa using hc : d.children p = (before ++ [x]) ++ after) (by omega)]
      simp [hacc]

lemma previousElement_eq {p n : NodeId} {before after : List NodeId}
    (hc : d.children p = before ++ n :: after) :
    d.previousElement n = (before.filter d.isElement).getLast? := by
  have hlen := h.length_children_le p
  rw [hc, List.length_append] at hlen
  rw [previousElement, (h.siblings hc).1, h.seek_previous hc (by omega)]

lemma previousElement_eq_some_iff {e n : NodeId} :
    d.previousElement n = some e ↔ d.IsClosestBefore e n := by
  constructor
  · intro he
    cases hp : d.parent n with
    | none => simp [previousElement, (h.orphan hp).1] at he
    | some p =>
      obtain ⟨before, after, hc⟩ := h.exists_split hp
      rw [h.previousElement_eq hc, List.getLast?_eq_some_iff] at he
      obtain ⟨ys, hys⟩ := he
      obtain ⟨front, back, rfl, hfront, hback⟩ := List.filter_eq_append_iff.mp hys
      obtain ⟨mid, rest, rfl, hmid, helem, hrest⟩ := List.filter_eq_cons_iff.mp hback
      refine ⟨p, front ++ mid, rest, after, by simpa using hc, helem, fun x hx => ?_⟩
      simpa using List.filter_eq_nil_iff.mp hrest x hx
  · rintro ⟨p, before, mid, after, hc, helem, hmid⟩
    rw [h.previousElement_eq hc]
    have hnone : mid.filter d.isElement = [] :=
      List.filter_eq_nil_iff.mpr fun x hx => by simp [hmid x hx]
    simp [List.filter_append, helem, hnone]

lemma isBefore_of_previousElement {e n : NodeId} (he : d.previousElement n = some e) :
    d.IsBefore e n := by
  obtain ⟨p, before, mid, after, hc, -, -⟩ := h.previousElement_eq_some_iff.mp he
  exact ⟨p, before, mid, after, hc⟩

lemma parent_of_split {p c : NodeId} {before after : List NodeId}
    (hc : d.children p = before ++ c :: after) : d.parent c = some p :=
  h.mem_children.mp (hc ▸ by simp)

lemma idxOf_of_split {p c : NodeId} {before after : List NodeId}
    (hc : d.children p = before ++ c :: after) : (d.children p).idxOf c = before.length := by
  have hnodup := h.nodup_children p
  rw [hc] at hnodup ⊢
  have hnot : c ∉ before := fun hmem =>
    (List.nodup_append.mp hnodup).2.2 c hmem c (by simp) rfl
  rw [List.idxOf_append_of_notMem hnot]
  simp

lemma idxOf_lt_of_isBefore {e n : NodeId} (hb : d.IsBefore e n) :
    ∃ p, d.parent e = some p ∧ d.parent n = some p ∧
      (d.children p).idxOf e < (d.children p).idxOf n := by
  obtain ⟨p, before, mid, after, hc⟩ := hb
  have hc' : d.children p = before ++ e :: (mid ++ n :: after) := by simpa using hc
  refine ⟨p, h.parent_of_split hc', h.parent_of_split hc, ?_⟩
  rw [h.idxOf_of_split hc, h.idxOf_of_split hc']
  simp

lemma transGen_previousElement {e n : NodeId}
    (ht : Relation.TransGen (Linked d.previousElement) n e) :
    ∃ p, d.parent e = some p ∧ d.parent n = some p ∧
      (d.children p).idxOf e < (d.children p).idxOf n := by
  induction ht with
  | single hs => exact h.idxOf_lt_of_isBefore (h.isBefore_of_previousElement hs)
  | tail _ hs ih =>
    obtain ⟨p, hb, hn, hlt⟩ := ih
    obtain ⟨q, hc, hb', hlt'⟩ := h.idxOf_lt_of_isBefore (h.isBefore_of_previousElement hs)
    obtain rfl : p = q := Option.some.inj (hb.symm.trans hb')
    exact ⟨p, hc, hn, Nat.lt_trans hlt' hlt⟩

lemma acyclic_previousElement (n : NodeId) :
    ¬ Relation.TransGen (Linked d.previousElement) n n := by
  intro ht
  obtain ⟨p, -, -, hlt⟩ := h.transGen_previousElement ht
  exact Nat.lt_irrefl _ hlt

lemma acyclic_parentElement (n : NodeId) :
    ¬ Relation.TransGen (Linked d.parentElement) n n := fun ht =>
  h.acyclic n (Relation.TransGen.mono (fun _ _ hs => (Option.filter_eq_some_iff.mp hs).1) _ _ ht)

lemma ends_parent {n : NodeId} (hn : n < d.size) : Ends d.parent d.size (some n) :=
  ends_of_acyclic h.parent_lt_size h.acyclic hn

/-- From a parent the way up ends one step earlier. -/
theorem ends_of_parent {c p : NodeId} {bound : Nat} (hp : d.parent c = some p)
    (hsize : d.size = bound + 1) : Ends d.parent bound (some p) := by
  have hends := h.ends_parent (lt_size_of_parent hp)
  rw [hsize] at hends
  exact hp ▸ hends.next_succ

lemma contains_iff (ancestor n : NodeId) :
    d.contains ancestor n = true ↔ Relation.TransGen (Linked d.parent) n ancestor := by
  rw [contains, Relation.TransGen.head'_iff]
  cases hp : d.parent n with
  | none => simp [Linked, hp]
  | some p =>
    rw [seek_isSome_iff (h.ends_parent (h.parent_lt_size hp))]
    constructor
    · rintro ⟨m, hm, heq⟩
      exact ⟨p, hp, beq_iff_eq.mp heq ▸ hm⟩
    · rintro ⟨q, hq, hm⟩
      obtain rfl := Option.some.inj (hp.symm.trans hq)
      exact ⟨ancestor, hm, beq_self_eq_true _⟩

/-- No walk in a forest needs more steps than the arena has nodes. -/
theorem ends_stepTo (direction : Direction) {n : NodeId} (hn : n < d.size) :
    Ends (d.stepTo direction) d.size (some n) := by
  refine ends_of_acyclic (fun hs => lt_size_of_isElement (isElement_of_stepTo hs)) ?_ hn
  cases direction with
  | parent => exact h.acyclic_parentElement
  | previousSibling => exact h.acyclic_previousElement

lemma ends_step (direction : Direction) (n : NodeId) :
    Ends (d.stepTo direction) d.size (d.stepTo direction n) := by
  cases hnext : d.stepTo direction n with
  | none => simp
  | some k => exact h.ends_stepTo direction (lt_size_of_isElement (isElement_of_stepTo hnext))

/-- The elements before a node among its siblings are those that steps back from it reach. -/
theorem transGen_previousElement_iff {e n : NodeId} :
    Relation.TransGen (Linked d.previousElement) n e ↔ d.isElement e = true ∧ d.IsBefore e n := by
  constructor
  · intro ht
    have helem : d.isElement e = true := by
      cases ht with
      | single hs => exact accept_of_seek hs
      | tail _ hs => exact accept_of_seek hs
    refine ⟨helem, ?_⟩
    obtain ⟨p, he, hn, hlt⟩ := h.transGen_previousElement ht
    obtain ⟨before, after, hc⟩ := h.exists_split hn
    rw [h.idxOf_of_split hc] at hlt
    have hmem : e ∈ before := by
      have := h.mem_children.mpr he
      rw [hc, List.mem_append] at this
      obtain hm | hm := this
      · exact hm
      · by_contra hnot
        rw [hc, List.idxOf_append_of_notMem hnot] at hlt
        omega
    obtain ⟨front, mid, rfl⟩ := List.append_of_mem hmem
    exact ⟨p, front, mid, after, hc⟩
  · rintro ⟨helem, p, before, mid, after, hc⟩
    -- the step from `n` leads to `e` or to an element between them
    induction hlen : mid.length using Nat.strongRecOn generalizing n mid after with
    | _ k ih =>
      have hprev := h.previousElement_eq hc
      cases hback : (mid.filter d.isElement).getLast? with
      | none =>
        have hnone : mid.filter d.isElement = [] := List.getLast?_eq_none_iff.mp hback
        refine .single ?_
        rw [Linked, hprev]
        simp [List.filter_append, helem, hnone]
      | some x =>
        have hx : d.previousElement n = some x := by
          rw [hprev, List.filter_append, List.filter_cons_of_pos helem,
            List.getLast?_append_of_ne_nil _ (List.cons_ne_nil _ _), List.getLast?_cons, hback]
          rfl
        obtain ⟨ys, hys⟩ := List.getLast?_eq_some_iff.mp hback
        have hxmid : x ∈ mid := (List.mem_filter.mp (by rw [hys]; simp : x ∈ mid.filter _)).1
        obtain ⟨front, back, rfl⟩ := List.append_of_mem hxmid
        refine .head hx (ih front.length ?_ front (back ++ n :: after) ?_ rfl)
        · rw [← hlen]
          simp
        · simpa using hc

end IsForest

end Document

end TreeQuery
