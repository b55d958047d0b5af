import TreeQuery.Proofs.Tree.Orderly
import TreeQuery.Proofs.Tree.Groves

/-!
# Pages

What a page shows of its document. On a forest the positions that it compares are document order, so
sorting nodes gives one list, whether the page is asked for positions or the paths of the nodes are
compared: the trees one after another as they first occur, and each of them as it is written down.
-/

namespace TreeQuery

namespace HookedPage

@[simp] lemma document_host (p : HookedPage) : p.host.document = p.document := by
  unfold host
  split <;> rfl

@[simp] lemma identity_host (p : HookedPage) : p.host.identity = p.identity := by
  unfold host
  split <;> rfl

@[simp] lemma features_host (p : HookedPage) : p.host.features = p.features := by
  unfold host
  split <;> rfl

@[simp] lemma xml_host (p : HookedPage) : p.host.xml = p.document.xml := by
  unfold host
  split <;> rfl

@[simp] lemma elementsById_host (p : HookedPage) :
    p.host.elementsById = p.document.elementsById := by
  unfold host
  split <;> rfl

@[simp] lemma elementsByTag_host (p : HookedPage) :
    p.host.elementsByTag = p.document.elementsByTag := by
  unfold host
  split <;> rfl

@[simp] lemma elementsByClass_host (p : HookedPage) :
    p.host.elementsByClass = p.document.elementsByClass := by
  unfold host
  split <;> rfl

@[simp] lemma comparePosition_host (p : HookedPage) :
    p.host.comparePosition = p.document.comparePosition := by
  unfold host
  split <;> rfl

variable {p : HookedPage} (hforest : p.document.IsForest)
include hforest

lemma isForest_host : p.host.document.IsForest := by
  rwa [document_host]

lemma comparesInOrder_host : p.host.ComparesInOrder := by
  intro _
  rw [comparePosition_host, document_host]
  exact ⟨fun a => if_pos rfl, fun a b hab => hforest.comparePosition_of_precedes hab⟩

/-- Both ways of sorting give one list, repeats included. -/
theorem sortByComparator_eq_sortByPath (nodes : List NodeId) :
    p.host.sortByComparator nodes = p.host.sortByPath nodes := by
  have hforest' := isForest_host hforest
  have hlisting := Host.pairwise_grove_roots hforest' nodes
  have hnodes := fun n => Host.mem_grove_roots hforest' nodes (n := n)
  rw [Host.sortByPath_eq hforest' hlisting hnodes]
  refine Host.sortByComparator_eq hlisting hnodes (fun a => ?_) fun a b hab => ?_
  · rw [comparePosition_host]
    exact if_pos rfl
  · rw [document_host] at hab
    rw [comparePosition_host]
    exact hforest.comparePosition_of_precedes hab

/-- Sorting nodes of a page gives each of them once: the trees in the order in which they first
occur among the nodes, and each tree in preorder. What the page advertises does not matter, and
sorting again changes nothing. -/
theorem uniqueSort_canonical (nodes : List NodeId) :
    (∀ n, n ∈ p.host.uniqueSort nodes ↔ n ∈ nodes) ∧
    (p.host.uniqueSort nodes).Nodup ∧
    (p.host.uniqueSort nodes).Pairwise
      (p.document.ListedBefore (nodes.map p.document.rootOf)) ∧
    p.host.uniqueSort nodes =
      (p.document.grove (distinct (nodes.map p.document.rootOf))).filter (nodes.contains ·) ∧
    p.host.sortByComparator nodes = p.host.sortByPath nodes ∧
    (∀ identity features,
      (p.withFeatures identity features).host.uniqueSort nodes = p.host.uniqueSort nodes) ∧
    p.host.uniqueSort (p.host.uniqueSort nodes) = p.host.uniqueSort nodes := by
  have hlisted : ∀ p : HookedPage, p.document.IsForest → p.host.uniqueSort nodes =
      (p.document.grove (distinct (nodes.map p.document.rootOf))).filter (nodes.contains ·) := by
    intro p hforest
    have hgrove := Host.uniqueSort_eq_grove (isForest_host hforest) nodes
      (comparesInOrder_host hforest)
    rwa [Host.roots, document_host] at hgrove
  have hforest' := isForest_host hforest
  have hcompare := comparesInOrder_host hforest
  have horder := Host.listedBefore_uniqueSort hforest' nodes hcompare
  rw [document_host] at horder
  refine ⟨fun n => Host.mem_uniqueSort, Host.nodup_uniqueSort hforest' nodes hcompare, horder,
    hlisted p hforest, sortByComparator_eq_sortByPath hforest nodes, fun identity features => ?_,
    Host.uniqueSort_uniqueSort hforest' nodes hcompare⟩
  rw [hlisted p hforest, hlisted (p.withFeatures identity features) hforest]
  rfl

end HookedPage

/-- The small document with a word in its second item, and apart from its tree a section with a
paragraph and a remark. -/
def Document.scattered : Document :=
  let (d, _) := Document.sample.appendText 3 "word"
  let (d, part) := d.createElement "section"
  let (d, _) := d.appendElement part "p" []
  (d.createComment "remark").1

lemma Document.isForest_scattered : Document.scattered.IsForest :=
  isForest_of_isOrderly (by with_unfolding_all decide)

namespace HookedPage

def scattered : HookedPage :=
  { document := .scattered, identity := 0, features := .indexed, hook := none }

/-- The paragraph is named first, then, twice, a node past the end of the arena. -/
theorem uniqueSort_canonical_sample :
    scattered.document.IsForest ∧
      scattered.host.uniqueSort [6, 9, 4, 2, 9, 7, 5, 3, 2] = [5, 6, 9, 2, 3, 4, 7] ∧
      (scattered.withFeatures 1 .none).host.uniqueSort [6, 9, 4, 2, 9, 7, 5, 3, 2] =
        [5, 6, 9, 2, 3, 4, 7] ∧
      scattered.host.uniqueSort [5, 6, 9, 2, 3, 4, 7] = [5, 6, 9, 2, 3, 4, 7] := by
  have hforest : scattered.document.IsForest := Document.isForest_scattered
  obtain ⟨-, -, -, hlisted, -, hfeatures, hagain⟩ :=
    uniqueSort_canonical hforest [6, 9, 4, 2, 9, 7, 5, 3, 2]
  have hsorted := hlisted.trans (by with_unfolding_all rfl : _ = [5, 6, 9, 2, 3, 4, 7])
  rw [hsorted] at hfeatures hagain
  exact ⟨hforest, hsorted, hfeatures 1 .none, hagain⟩

end HookedPage

end TreeQuery
