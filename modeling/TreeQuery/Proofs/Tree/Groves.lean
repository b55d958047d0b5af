import TreeQuery.Proofs.Tree.Sorting

/-!
# Groves

Nodes of several trees are sorted into the trees one after another, in the order in which their
roots first occur, and into preorder within each of them.
-/

namespace TreeQuery

/-- The first occurrences in a list come in the order of their places in it. -/
theorem pairwise_distinct (xs : List NodeId) :
    (distinct xs).Pairwise fun a b => xs.idxOf a < xs.idxOf b := by
  induction xs using List.reverseRecOn with
  | nil => exact .nil
  | append_singleton xs x ih =>
    have hplace : ∀ {n}, n ∈ distinct xs → (xs ++ [x]).idxOf n = xs.idxOf n := fun hn =>
      List.idxOf_append_of_mem (mem_distinct.mp hn)
    have hfront : (distinct xs).Pairwise fun a b =>
        (xs ++ [x]).idxOf a < (xs ++ [x]).idxOf b :=
      ih.imp_of_mem fun ha hb hab => by rwa [hplace ha, hplace hb]
    have hlast : distinct (xs ++ [x]) =
        if (distinct xs).contains x then distinct xs else distinct xs ++ [x] := by
      simp [distinct]
    rw [hlast]
    split
    · exact hfront
    · rename_i hnew
      have hx : x ∉ xs := fun hx => hnew (List.contains_iff_mem.mpr (mem_distinct.mpr hx))
      refine List.pairwise_append.mpr ⟨hfront, List.pairwise_singleton _ _, fun n hn y hy => ?_⟩
      obtain rfl := List.mem_singleton.mp hy
      have hn' := List.idxOf_lt_length_of_mem (mem_distinct.mp hn)
      rw [hplace hn, List.idxOf_append_of_notMem hx]
      omega

lemma nodup_distinct (xs : List NodeId) : (distinct xs).Nodup :=
  (pairwise_distinct xs).imp fun hlt heq => Nat.ne_of_lt hlt (congrArg xs.idxOf heq)

namespace Document

/-- The trees below some roots, written down one after another. -/
def grove (d : Document) (roots : List NodeId) : List NodeId :=
  roots.flatMap fun root => root :: d.descendants root

/-- What is listed by first occurrences is listed by places. -/
theorem ListedBefore.of_distinct {d : Document} {nodes : List NodeId} {a b : NodeId}
    (ha : a ∈ nodes) (hb : b ∈ nodes)
    (hab : d.ListedBefore (distinct (nodes.map d.rootOf)) a b) :
    d.ListedBefore (nodes.map d.rootOf) a b :=
  hab.imp_left <| idxOf_lt_of_pairwise (pairwise_distinct _)
    (mem_distinct.mpr (List.mem_map_of_mem ha)) (mem_distinct.mpr (List.mem_map_of_mem hb))

namespace IsForest

variable {d : Document} (h : d.IsForest)
include h

lemma rootOf_rootOf (n : NodeId) : d.rootOf (d.rootOf n) = d.rootOf n :=
  h.rootOf_eq_rootOf_iff.mpr .refl

/-- A tree holds the nodes that have its root. -/
theorem mem_tree {root n : NodeId} (hroot : d.rootOf root = root) :
    n ∈ root :: d.descendants root ↔ d.rootOf n = root := by
  have hreach := h.rootOf_eq_rootOf_iff (n := n) (m := root)
  rw [hroot, Relation.reflTransGen_iff_eq_or_transGen] at hreach
  rw [List.mem_cons, h.mem_descendants, hreach, eq_comm (a := n)]

lemma pairwise_tree (root : NodeId) : (root :: d.descendants root).Pairwise d.Precedes :=
  List.pairwise_cons.mpr
    ⟨fun _ hn => .inl (h.mem_descendants.mp hn), h.pairwise_descendants root⟩

lemma mem_grove {roots : List NodeId} (hroots : ∀ root ∈ roots, d.rootOf root = root)
    {n : NodeId} : n ∈ d.grove roots ↔ d.rootOf n ∈ roots := by
  rw [grove, List.mem_flatMap]
  constructor
  · rintro ⟨root, hroot, hn⟩
    rwa [(h.mem_tree (hroots root hroot)).mp hn]
  · exact fun hn => ⟨d.rootOf n, hn, (h.mem_tree (h.rootOf_rootOf n)).mpr rfl⟩

lemma pairwise_grove {roots : List NodeId} (hroots : ∀ root ∈ roots, d.rootOf root = root)
    (hnodup : roots.Nodup) : (d.grove roots).Pairwise (d.ListedBefore roots) := by
  refine List.pairwise_flatMap.mpr ⟨fun root hroot => ?_, ?_⟩
  · refine (h.pairwise_tree root).imp_of_mem fun ha hb hab => .inr ⟨?_, hab⟩
    rw [(h.mem_tree (hroots root hroot)).mp ha, (h.mem_tree (hroots root hroot)).mp hb]
  · refine (pairwise_idxOf_of_nodup hnodup).imp_of_mem fun hx hy hxy a ha b hb => .inl ?_
    rwa [(h.mem_tree (hroots _ hx)).mp ha, (h.mem_tree (hroots _ hy)).mp hb]

end IsForest

end Document

namespace Host

/-- What is listed by the roots of some nodes is listed by its own roots. -/
theorem listedBefore_of_pairwise {h : Host} {nodes roots : List NodeId} {a b : NodeId} (ha : a ∈ nodes)
    (hb : b ∈ nodes) (hnodes : nodes.Pairwise (h.document.ListedBefore roots))
    (hab : h.document.ListedBefore roots a b) : h.document.ListedBefore (h.roots nodes) a b := by
  obtain hlt | hsame := hab
  · -- the root of `b` is another one, and it does not occur first
    have hrank : (nodes.map h.document.rootOf).Pairwise fun r s =>
        roots.idxOf r ≤ roots.idxOf s := by
      refine List.pairwise_map.mpr (hnodes.imp fun hxy => ?_)
      obtain hlt | ⟨heq, -⟩ := hxy
      · exact Nat.le_of_lt hlt
      · exact Nat.le_of_eq (congrArg roots.idxOf heq)
    have hra : h.document.rootOf a ∈ h.roots nodes := mem_distinct.mpr (List.mem_map_of_mem ha)
    have hrb : h.document.rootOf b ∈ h.roots nodes := mem_distinct.mpr (List.mem_map_of_mem hb)
    refine .inl (Nat.lt_of_not_le fun hle => ?_)
    obtain heq | hlater := Nat.eq_or_lt_of_le hle
    · rw [(List.idxOf_inj hrb).mp heq] at hlt
      exact Nat.lt_irrefl _ hlt
    · have hplaces := idxOf_lt_of_pairwise (pairwise_distinct _) hrb hra hlater
      have hback := idxOf_lt_of_pairwise hrank (mem_distinct.mp hrb) (mem_distinct.mp hra) hplaces
      omega
  · exact .inr hsame

variable {h : Host} (hforest : h.document.IsForest) (nodes : List NodeId)
include hforest

lemma rootOf_of_mem_roots {root : NodeId} (hroot : root ∈ h.roots nodes) :
    h.document.rootOf root = root := by
  obtain ⟨n, -, rfl⟩ := List.mem_map.mp (mem_distinct.mp hroot)
  exact hforest.rootOf_rootOf n

lemma mem_grove_roots {n : NodeId} (hn : n ∈ nodes) : n ∈ h.document.grove (h.roots nodes) :=
  (hforest.mem_grove fun _ => rootOf_of_mem_roots hforest nodes).mpr
    (mem_distinct.mpr (List.mem_map_of_mem hn))

lemma pairwise_grove_roots :
    (h.document.grove (h.roots nodes)).Pairwise (h.document.ListedBefore (h.roots nodes)) :=
  hforest.pairwise_grove (fun _ => rootOf_of_mem_roots hforest nodes) (nodup_distinct _)

/-- Sorting gives the nodes in the order in which their trees are written down. -/
theorem uniqueSort_eq_grove (hcompare : h.ComparesInOrder) :
    h.uniqueSort nodes = (h.document.grove (h.roots nodes)).filter (nodes.contains ·) :=
  uniqueSort_eq_filter_listing hforest (pairwise_grove_roots hforest nodes)
    (fun _ => mem_grove_roots hforest nodes) hcompare

lemma listedBefore_uniqueSort (hcompare : h.ComparesInOrder) :
    (h.uniqueSort nodes).Pairwise
      (h.document.ListedBefore (nodes.map h.document.rootOf)) := by
  have hgrove : (h.uniqueSort nodes).Pairwise (h.document.ListedBefore (h.roots nodes)) := by
    rw [uniqueSort_eq_grove hforest nodes hcompare]
    exact (pairwise_grove_roots hforest nodes).filter _
  exact hgrove.imp_of_mem fun ha hb hab =>
    hab.of_distinct (mem_uniqueSort.mp ha) (mem_uniqueSort.mp hb)

lemma nodup_uniqueSort (hcompare : h.ComparesInOrder) : (h.uniqueSort nodes).Nodup := by
  refine (listedBefore_uniqueSort hforest nodes hcompare).imp ?_
  rintro a _ hab rfl
  exact hforest.not_listedBefore_self _ a hab

/-- Sorting what is sorted changes nothing. -/
theorem uniqueSort_uniqueSort (hcompare : h.ComparesInOrder) :
    h.uniqueSort (h.uniqueSort nodes) = h.uniqueSort nodes := by
  have hsorted := listedBefore_uniqueSort hforest nodes hcompare
  have hlisting := hsorted.imp_of_mem fun ha hb hab =>
    listedBefore_of_pairwise ha hb hsorted hab
  rw [uniqueSort_eq_filter_listing hforest hlisting (fun _ hn => hn) hcompare]
  exact List.filter_eq_self.mpr fun n hn => List.contains_iff_mem.mpr hn

end Host

end TreeQuery
