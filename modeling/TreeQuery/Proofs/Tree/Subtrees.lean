import TreeQuery.Proofs.Tree.Orderly
import TreeQuery.Proofs.Tree.Sorting

/-!
# Subtrees

What stands below a node, in preorder: its elements, each listed once, and the contents of its text
nodes, each taken once. The elements are found by climbing from a node to the next one, the texts
with a stack of the nodes that were met. Both walks see all that is below the node and nothing else.
-/

namespace TreeQuery

/-- In a list without repetition that is written down in an order, places are as in the order. -/
theorem idxOf_lt_iff_of_pairwise {R : NodeId → NodeId → Prop} {xs : List NodeId}
    (hxs : xs.Pairwise R) (hasymm : ∀ a b, R a b → ¬ R b a) {a b : NodeId} (ha : a ∈ xs)
    (hb : b ∈ xs) : xs.idxOf a < xs.idxOf b ↔ R a b := by
  refine ⟨idxOf_lt_of_pairwise hxs ha hb, fun hab => ?_⟩
  obtain hlt | heq | hgt := Nat.lt_trichotomy (xs.idxOf a) (xs.idxOf b)
  · exact hlt
  · obtain rfl := (List.idxOf_inj ha).mp heq
    exact absurd hab (hasymm a a hab)
  · exact absurd hab (hasymm b a (idxOf_lt_of_pairwise hxs hb ha hgt))

namespace Document

/-- The text nodes below a node in preorder. -/
def textsBelow (d : Document) (n : NodeId) : List NodeId :=
  (d.descendants n).filter d.isText

variable {d : Document}

lemma collectText_none_nil (bound : Nat) (out : String) :
    d.collectText bound none [] out = out := by
  cases bound <;> rfl

lemma join_filterMap_text_cons (n : NodeId) (nodes : List NodeId) :
    String.join ((n :: nodes).filterMap d.text) =
      (d.text n).getD "" ++ String.join (nodes.filterMap d.text) := by
  cases ht : d.text n with
  | none => simp [ht]
  | some content => simp [ht]

lemma isText_iff {n : NodeId} :
    d.isText n = true ↔ ∃ content, d.data n = some (.text content) := by
  rw [isText, text]
  split <;> simp_all

/-- Nodes without text add nothing. -/
theorem filterMap_text_filter (nodes : List NodeId) :
    (nodes.filter d.isText).filterMap d.text = nodes.filterMap d.text := by
  rw [List.filterMap_filter]
  refine List.filterMap_congr fun n _ => ?_
  cases ht : d.text n <;> simp [isText, ht]

/-- A section with a text that has an element below it, a remark and a paragraph, and after the
section a text that is no part of it. -/
def worded : Document :=
  let (d, part) := (Document.empty false).appendElement root "section" []
  let (d, word) := d.appendText part "a"
  let (d, under) := d.appendElement word "b" []
  let (d, _) := d.appendText under "c"
  let (d, remark) := d.createComment "x"
  let (d, paragraph) := (d.appendChild part remark).appendElement part "p" []
  let (d, _) := d.appendText paragraph "d"
  (d.appendText root "e").1

lemma isForest_worded : worded.IsForest :=
  isForest_of_isOrderly (by with_unfolding_all decide)

namespace IsForest

section

variable (h : d.IsForest)
include h

lemma precedes_asymm {a b : NodeId} (hab : d.Precedes a b) : ¬ d.Precedes b a := by
  intro hba
  have hlt := (h.comparePosition_of_precedes hab).1
  rw [(h.comparePosition_of_precedes hba).2] at hlt
  exact absurd hlt (by decide)

/-- The elements below a node are listed exactly once and in preorder: what is above comes before
what is below it, and everything below a node before everything below its later siblings. To be
below is to come to the node by steps to a parent. -/
theorem descendantElements_preorder (scope : NodeId) :
    (∀ e, (d.descendantElements scope).count e =
      if d.isElement e = true ∧ d.contains scope e = true then 1 else 0) ∧
    (∀ a ∈ d.descendantElements scope, ∀ b ∈ d.descendantElements scope,
      ((d.descendantElements scope).idxOf a < (d.descendantElements scope).idxOf b ↔
        d.Precedes a b)) ∧
    ∀ a e, d.contains a e = true ↔ Relation.TransGen (Linked d.parent) e a := by
  refine ⟨fun e => ?_, fun a ha b hb => ?_, h.contains_iff⟩
  · rw [(h.nodup_descendantElements scope).count]
    refine if_congr ?_ rfl rfl
    rw [h.mem_descendantElements, h.contains_iff, and_comm]
  · exact idxOf_lt_iff_of_pairwise (h.pairwise_descendantElements scope)
      (fun _ _ => h.precedes_asymm) ha hb

end

/-- The element below the text comes before the paragraph, and the text after the section is not
below it. -/
theorem descendantElements_preorder_worded :
    worded.IsForest ∧ worded.descendantElements 1 = [3, 6] ∧ worded.Precedes 3 6 ∧
      (worded.descendantElements 1).count 8 = 0 ∧
      Relation.TransGen (Linked worded.parent) 3 1 := by
  obtain ⟨hcount, horder, hbelow⟩ := descendantElements_preorder isForest_worded 1
  have hlisted : worded.descendantElements 1 = [3, 6] := by with_unfolding_all decide
  refine ⟨isForest_worded, hlisted, ?_, ?_, (hbelow 1 3).mp (by with_unfolding_all decide)⟩
  · refine (horder 3 (by simp [hlisted]) 6 (by simp [hlisted])).mp ?_
    rw [hlisted]
    decide
  · rw [hcount, if_neg (by with_unfolding_all decide)]

section

variable (h : d.IsForest)
include h

/-- From a child on, the walk takes the texts of the child, of its later siblings and of what is
below them, and comes back to the stack that it had. Each node takes a step down and a step back. -/
theorem collectText_siblings {height : Nat} {p : NodeId}
    (hheight : d.size ≤ d.depth p + (height + 1)) :
    ∀ {rest before : List NodeId}, d.children p = before ++ rest →
      ∀ (bound : Nat) (met : List NodeId) (out : String),
        d.collectText (bound + 2 * (rest.flatMap fun c => c :: d.levels height c).length)
            rest.head? met out =
          d.collectText bound none met
            (out ++
              String.join ((rest.flatMap fun c => c :: d.levels height c).filterMap d.text)) := by
  induction height generalizing p with
  | zero =>
    intro rest before hc bound met out
    cases rest with
    | nil => simp
    | cons c after =>
      -- a child stands deeper than its parent, and no node stands deeper than all levels
      have hp := h.parent_of_split hc
      have hdepth := h.depth_child hp
      have hlt := h.depth_lt_size (lt_size_of_parent hp)
      omega
  | succ height ih =>
    intro rest
    induction rest with
    | nil => intro before hc bound met out; simp
    | cons c after ihrest =>
      intro before hc bound met out
      have hdepth := h.depth_child (h.parent_of_split hc)
      have hafter : d.children p = (before ++ [c]) ++ after := by simpa using hc
      have hbelow := ih (by omega : d.size ≤ d.depth c + (height + 1))
        (List.nil_append (d.children c)).symm
      have hsteps :
          bound + 2 * ((c :: after).flatMap fun c => c :: d.levels (height + 1) c).length =
          (bound + 2 * (after.flatMap fun c => c :: d.levels (height + 1) c).length + 1) +
            2 * (d.levels (height + 1) c).length + 1 := by
        rw [List.flatMap_cons, List.length_append, List.length_cons]
        omega
      rw [hsteps, List.head?_cons, collectText, firstChild_eq, levels, hbelow, collectText,
        (h.siblings hc).2, ihrest hafter, List.flatMap_cons, List.cons_append,
        join_filterMap_text_cons, List.filterMap_append, String.join_append, levels]
      simp only [String.append_assoc]

lemma length_descendants_le (n : NodeId) : (d.descendants n).length ≤ d.size := by
  rw [h.descendants_eq_levels (Nat.le_add_left d.size (d.depth n))]
  by_cases hn : n < d.size
  · exact Nat.le_of_lt (h.length_levels_lt d.size hn)
  · have hnone := children_of_ge (Nat.le_of_not_lt hn)
    cases d.size <;> simp [levels, hnone]

lemma textContent_eq (n : NodeId) :
    d.textContent n = String.join ((d.descendants n).filterMap d.text) := by
  have hle := h.length_descendants_le n
  have hlevels := h.descendants_eq_levels (n := n) (by omega : d.size ≤ d.depth n + (d.size + 1))
  rw [levels] at hlevels
  have hwalk := h.collectText_siblings (by omega : d.size ≤ d.depth n + (d.size + 1))
    (List.nil_append (d.children n)).symm (2 * d.size - 2 * (d.descendants n).length) [] ""
  rw [← hlevels, Nat.sub_add_cancel (Nat.mul_le_mul_left 2 hle), ← firstChild_eq] at hwalk
  rw [textContent, hwalk, collectText_none_nil, String.empty_append]

lemma mem_textsBelow {n m : NodeId} :
    m ∈ d.textsBelow n ↔ Relation.TransGen (Linked d.parent) m n ∧ d.isText m = true := by
  rw [textsBelow, List.mem_filter, h.mem_descendants]

/-- The text of a node is put together of the contents of the text nodes below it, each of them once
and in preorder. A comment adds nothing, nor does the node itself or a sibling of it. -/
theorem textContent_collects (n : NodeId) :
    d.textContent n = String.join ((d.textsBelow n).filterMap d.text) ∧
    (∀ m, m ∈ d.textsBelow n ↔
      (∃ content, d.data m = some (.text content)) ∧ Relation.TransGen (Linked d.parent) m n) ∧
    (d.textsBelow n).Nodup ∧
    (d.textsBelow n).Pairwise d.Precedes ∧
    n ∉ d.textsBelow n ∧
    (∀ m content, d.data m = some (.comment content) → m ∉ d.textsBelow n) ∧
    ∀ m, d.IsBefore m n ∨ d.IsBefore n m → m ∉ d.textsBelow n := by
  have horder := (h.pairwise_descendants n).filter d.isText
  refine ⟨?_, fun m => ?_, ?_, horder, fun hmem => ?_, fun m content hdata hmem => ?_,
    fun m hsibling hmem => ?_⟩
  · rw [h.textContent_eq, textsBelow, filterMap_text_filter]
  · rw [h.mem_textsBelow, isText_iff, and_comm]
  · refine horder.imp ?_
    rintro a _ hab rfl
    exact h.not_precedes_self a hab
  · exact h.acyclic n (h.mem_textsBelow.mp hmem).1
  · obtain ⟨content', htext⟩ := isText_iff.mp (h.mem_textsBelow.mp hmem).2
    simp [hdata] at htext
  · obtain ⟨p, hm, hn⟩ : ∃ p, d.parent m = some p ∧ d.parent n = some p := by
      obtain hbefore | hbefore := hsibling
      · obtain ⟨p, hm, hn, -⟩ := h.idxOf_lt_of_isBefore hbefore
        exact ⟨p, hm, hn⟩
      · obtain ⟨p, hn, hm, -⟩ := h.idxOf_lt_of_isBefore hbefore
        exact ⟨p, hm, hn⟩
    -- the way up from a sibling leads to the node by way of the parent that they share
    obtain ⟨q, hq, hreach⟩ := Relation.TransGen.head'_iff.mp (h.mem_textsBelow.mp hmem).1
    obtain rfl := Option.some.inj (hm.symm.trans hq)
    exact h.acyclic n (.head' hn hreach)

end

theorem textContent_collects_worded :
    worded.IsForest ∧ worded.textsBelow 1 = [2, 4, 7] ∧ worded.textContent 1 = "acd" ∧
      8 ∉ worded.textsBelow 1 ∧ 5 ∉ worded.textsBelow 1 := by
  obtain ⟨hcontent, -, -, -, -, hcomment, hsibling⟩ := textContent_collects isForest_worded 1
  have htexts : worded.textsBelow 1 = [2, 4, 7] := by with_unfolding_all decide
  refine ⟨isForest_worded, htexts, ?_, hsibling 8 (.inr ⟨0, [], [], [], by with_unfolding_all rfl⟩),
    hcomment 5 "x" (by with_unfolding_all rfl)⟩
  rw [hcontent, htexts]
  with_unfolding_all rfl

end IsForest

end Document

end TreeQuery
