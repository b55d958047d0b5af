import TreeQuery.Proofs.Tree.Forest

/-!
# Element siblings

A walk over element siblings meets the elements before or behind a node, the closest first. Among
its element siblings, or among those with its tag, an element has a place counted from either end.
-/

namespace TreeQuery

namespace Document

/-- Whether two elements have the same tag. -/
def sameTag (d : Document) (xml : Bool) (a b : NodeId) : Bool :=
  (d.localName a).any fun name => (d.localName b).any fun tag => sameName xml tag name

/-- The element children of the parent of `n`, in their order, or those of them with the tag of
`n`. -/
def peers (d : Document) (xml ofType : Bool) (n : NodeId) : List NodeId :=
  match d.parent n with
  | none => []
  | some p => (d.children p).filter fun k => d.isElement k && (!ofType || d.sameTag xml n k)

/-- The place of `n` among its peers, counted from one. -/
def place (d : Document) (xml ofType fromEnd : Bool) (n : NodeId) : Nat :=
  let peers := d.peers xml ofType n
  (if fromEnd then peers.reverse else peers).idxOf n + 1

lemma sameTag_self (d : Document) (xml : Bool) {n : NodeId} (helem : d.isElement n = true) :
    d.sameTag xml n n = true := by
  obtain ⟨e, he⟩ := Option.isSome_iff_exists.mp helem
  have hname : d.localName n = some e.name := by rw [localName, he]; rfl
  cases xml <;> simp [sameTag, hname, sameName, equalFolded]

namespace IsForest

variable {d : Document} (h : d.IsForest)
include h

lemma nextElement_eq {p n : NodeId} {before after : List NodeId}
    (hc : d.children p = before ++ n :: after) :
    d.nextElement n = (after.filter d.isElement).head? := by
  have hlen := h.length_children_le p
  have hc' : d.children p = (before ++ [n]) ++ after := by simpa using hc
  rw [hc, List.length_append, List.length_cons] at hlen
  rw [nextElement, (h.siblings hc).2, h.seek_next hc' (by omega), List.head?_filter]

lemma seek_previousElement {accept : NodeId → Bool} {p : NodeId} {before after : List NodeId}
    {bound : Nat} (hc : d.children p = before ++ after) (hb : before.length ≤ bound) :
    seek d.previousElement accept bound (before.filter d.isElement).getLast? =
      ((before.filter d.isElement).filter accept).getLast? := by
  induction before using List.reverseRecOn generalizing after bound with
  | nil => simp
  | append_singleton before x ih =>
    rw [List.length_append, List.length_singleton] at hb
    have hx : d.children p = before ++ x :: after := by simpa using hc
    by_cases helem : d.isElement x = true
    · obtain ⟨bound, rfl⟩ : ∃ b, bound = b + 1 := ⟨bound - 1, by omega⟩
      rw [List.filter_append, List.filter_cons_of_pos helem, List.filter_nil, List.getLast?_concat,
        seek, h.previousElement_eq hx, ih hx (by omega), List.filter_append]
      by_cases hacc : accept x = true <;> simp [hacc]
    · rw [List.filter_append, List.filter_cons_of_neg helem, List.filter_nil, List.append_nil,
        ih hx (by omega)]

lemma seek_nextElement {accept : NodeId → Bool} {p : NodeId} {before after : List NodeId}
    {bound : Nat} (hc : d.children p = before ++ after) (hb : after.length ≤ bound) :
    seek d.nextElement accept bound (after.filter d.isElement).head? =
      ((after.filter d.isElement).filter accept).head? := by
  induction after generalizing before bound with
  | nil => simp
  | cons x after ih =>
    rw [List.length_cons] at hb
    have hx : d.children p = (before ++ [x]) ++ after := by simpa using hc
    by_cases helem : d.isElement x = true
    · obtain ⟨bound, rfl⟩ : ∃ b, bound = b + 1 := ⟨bound - 1, by omega⟩
      rw [List.filter_cons_of_pos helem, List.head?_cons, seek, h.nextElement_eq hc,
        ih hx (by omega)]
      by_cases hacc : accept x = true <;> simp [hacc]
    · rw [List.filter_cons_of_neg helem, ih hx (by omega)]

variable {p n : NodeId} {before after : List NodeId} (hc : d.children p = before ++ n :: after)
  (helem : d.isElement n = true)
include hc helem

/-- The peers of an element are those before it, itself, and those behind it. -/
theorem peers_eq (xml ofType : Bool) :
    d.peers xml ofType n =
      before.filter (fun k => d.isElement k && (!ofType || d.sameTag xml n k)) ++
        n :: after.filter fun k => d.isElement k && (!ofType || d.sameTag xml n k) := by
  have hsame : (!ofType || d.sameTag xml n n) = true := by
    rw [d.sameTag_self xml helem, Bool.or_true]
  rw [peers, h.parent_of_split hc]
  simp only [hc, List.filter_append]
  rw [List.filter_cons_of_pos (by rw [helem, hsame]; rfl)]

lemma place_eq (xml ofType fromEnd : Bool) :
    d.place xml ofType fromEnd n =
      ((if fromEnd then after else before).filter fun k =>
        d.isElement k && (!ofType || d.sameTag xml n k)).length + 1 := by
  have hnodup := h.nodup_children p
  rw [hc] at hnodup
  obtain ⟨hbefore, hafter⟩ : n ∉ before ∧ n ∉ after := by
    obtain ⟨-, hrest, hapart⟩ := List.nodup_append.mp hnodup
    exact ⟨fun hmem => hapart n hmem n List.mem_cons_self rfl, (List.nodup_cons.mp hrest).1⟩
  have hidx : ∀ front back : List NodeId, n ∉ front →
      (front.filter (fun k => d.isElement k && (!ofType || d.sameTag xml n k)) ++ n :: back).idxOf n
        = (front.filter fun k => d.isElement k && (!ofType || d.sameTag xml n k)).length := by
    intro front back hfront
    rw [List.idxOf_append_of_notMem fun hmem => hfront (List.mem_of_mem_filter hmem)]
    simp
  rw [place, h.peers_eq hc helem]
  cases fromEnd with
  | false => exact congrArg (· + 1) (hidx before _ hbefore)
  | true =>
    have hback := hidx after.reverse
      (before.filter fun k => d.isElement k && (!ofType || d.sameTag xml n k)).reverse
      (by simpa using hafter)
    simp only [if_true, List.reverse_append, List.reverse_cons, List.append_assoc,
      List.singleton_append, ← List.filter_reverse] at hback ⊢
    rw [hback, List.filter_reverse, List.length_reverse]

end IsForest

end Document

end TreeQuery
