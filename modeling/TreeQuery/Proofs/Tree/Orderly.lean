import TreeQuery.Proofs.Tree.Forest
import TreeQuery.Proofs.Tree.Mutators

/-!
# Orderly arenas

A check that can be run. An arena that passes it is a forest in which no node comes before its
parent. A new document does, and so does a small list.
-/

namespace TreeQuery

namespace Document

/-- Whether siblings are linked with each other, the first one with `previous`. -/
def linksSiblings (d : Document) (previous : Option NodeId) : List NodeId → Bool
  | [] => true
  | c :: rest =>
    d.previousSibling c == previous && d.nextSibling c == rest.head? &&
      d.linksSiblings (some c) rest

/-- Whether the links of a node and those of its children agree. -/
def isOrderlyAt (d : Document) (n : NodeId) : Bool :=
  let children := d.children n
  decide children.Nodup && d.lastChild n == children.getLast? && d.linksSiblings none children &&
    (children.all fun c => d.parent c == some n) &&
    match d.parent n with
    | some p => decide (p < n) && (d.children p).contains n
    | none => (d.previousSibling n).isNone && (d.nextSibling n).isNone

def isOrderly (d : Document) : Bool := (List.range d.size).all d.isOrderlyAt

variable {d : Document}

lemma links_of_linksSiblings {previous : Option NodeId} {before after : List NodeId} {c : NodeId}
    (h : d.linksSiblings previous (before ++ c :: after) = true) :
    d.previousSibling c = before.getLast?.or previous ∧ d.nextSibling c = after.head? := by
  induction before generalizing previous with
  | nil =>
    simp only [List.nil_append, linksSiblings, Bool.and_eq_true, beq_iff_eq] at h
    simpa using h.1
  | cons x before ih =>
    simp only [List.cons_append, linksSiblings, Bool.and_eq_true] at h
    obtain ⟨hprevious, hnext⟩ := ih h.2
    refine ⟨?_, hnext⟩
    rw [hprevious, List.getLast?_cons]
    cases before.getLast? <;> rfl

lemma children_of_ge {p : NodeId} (h : d.size ≤ p) : d.children p = [] := by
  rw [children, firstChild_none_of_ge h]
  cases d.size <;> rfl

lemma isForest_of_isOrderly (h : d.isOrderly = true) : d.IsForest := by
  have hat : ∀ {n}, n < d.size → d.isOrderlyAt n = true := fun hn =>
    List.all_eq_true.mp h _ (List.mem_range.mpr hn)
  have habove : ∀ {p c}, d.parent c = some p → p < c ∧ c ∈ d.children p := by
    intro p c hp
    have hc := hat (lt_size_of_parent hp)
    simp only [isOrderlyAt, hp, Bool.and_eq_true, decide_eq_true_eq, List.contains_iff_mem] at hc
    exact hc.2
  have hbelow : ∀ {p}, d.children p ≠ [] → p < d.size := fun hne =>
    Nat.lt_of_not_le fun hle => hne (children_of_ge hle)
  refine ⟨fun {p c} => ⟨fun hc => ?_, fun hp => (habove hp).2⟩, fun p => ?_, fun p => ?_,
    fun {p c before after} hc => ?_, fun {n} hn => ?_, fun n hcycle => ?_⟩
  · have hp := hat (hbelow (List.ne_nil_of_mem hc))
    simp only [isOrderlyAt, Bool.and_eq_true, List.all_eq_true, beq_iff_eq] at hp
    exact hp.1.2 c hc
  · cases hnil : d.children p with
    | nil => exact List.nodup_nil
    | cons c rest =>
      have hp := hat (hbelow (p := p) (by simp [hnil]))
      simp only [isOrderlyAt, Bool.and_eq_true, decide_eq_true_eq] at hp
      exact hnil ▸ hp.1.1.1.1
  · by_cases hp : p < d.size
    · have hp := hat hp
      simp only [isOrderlyAt, Bool.and_eq_true, beq_iff_eq] at hp
      exact hp.1.1.1.2
    · have hge := Nat.le_of_not_lt hp
      rw [children_of_ge hge, lastChild, Array.getElem?_eq_none hge]
      rfl
  · have hp := hat (hbelow (p := p) (by simp [hc]))
    simp only [isOrderlyAt, Bool.and_eq_true] at hp
    have hlinks := hp.1.1.2
    rw [hc] at hlinks
    simpa using links_of_linksSiblings hlinks
  · by_cases hlt : n < d.size
    · have hat := hat hlt
      simp only [isOrderlyAt, hn, Bool.and_eq_true, Option.isNone_iff_eq_none] at hat
      exact hat.2
    · have hnone : d.nodes[n]? = none := Array.getElem?_eq_none (Nat.le_of_not_lt hlt)
      simp [previousSibling, nextSibling, hnone]
  · have hlt : ∀ {a b}, Relation.TransGen (Linked d.parent) a b → b < a := by
      intro a b hab
      induction hab with
      | single hs => exact (habove hs).1
      | tail _ hs ih => exact Nat.lt_trans (habove hs).1 ih
    exact Nat.lt_irrefl _ (hlt hcycle)

lemma isForest_empty (xml : Bool) : (Document.empty xml).IsForest := by
  cases xml <;> exact isForest_of_isOrderly (by decide)

section Sample

/-- A list with the class `a` and two items, the second one with the id `x`. -/
def sample : Document :=
  let (d, list) := (Document.empty false).appendElement root "ul" [("class", "a")]
  let (d, _) := d.appendElement list "li" [("class", "b")]
  let (d, _) := d.appendElement list "li" [("id", "x"), ("class", "b c")]
  d

lemma isForest_sample (xml : Bool) : IsForest ⟨sample.nodes, xml⟩ := by
  cases xml <;> exact isForest_of_isOrderly (by decide +kernel)

lemma reached_sample : sample.Reached := by
  have hlist := (Reached.empty false).appendElement root "ul" [("class", "a")]
  have hitem := hlist.appendElement 1 "li" [("class", "b")]
  exact hitem.appendElement 1 "li" [("id", "x"), ("class", "b c")]

end Sample

end Document

end TreeQuery
