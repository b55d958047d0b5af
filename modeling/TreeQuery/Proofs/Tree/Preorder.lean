import TreeQuery.Tree.Position
import TreeQuery.Proofs.Tree.Forest

/-!
# Preorder

The walk of `Document.descendants` through a forest writes a subtree down in preorder: a node comes
before everything below it, and everything below it before its next sibling.
-/

namespace TreeQuery

namespace Document

/-- Whether `a` comes before `b` in document order: `a` is above `b`, or a sibling before another
one leads down to `a` and the other one to `b`. -/
def Precedes (d : Document) (a b : NodeId) : Prop :=
  Relation.TransGen (Linked d.parent) b a ∨
    ∃ x y, d.IsBefore x y ∧ Relation.ReflTransGen (Linked d.parent) a x ∧
      Relation.ReflTransGen (Linked d.parent) b y

/-- The nodes below a node in preorder, at most `height` levels of them. -/
def levels (d : Document) : Nat → NodeId → List NodeId
  | 0, _ => []
  | height + 1, n => (d.children n).flatMap fun c => c :: d.levels height c

variable {d : Document}

lemma depth_go_eq (bound : Nat) (n : NodeId) :
    depth.go d (bound + 1) n + 1 = (chain d.parent (bound + 2) (some n)).length := by
  induction bound generalizing n with
  | zero =>
    cases hp : d.parent n with
    | none => simp [depth.go, chain, hp]
    | some p => cases hq : d.parent p <;> simp [depth.go, chain, hp, hq]
  | succ bound ih =>
    cases hp : d.parent n with
    | none => simp [depth.go, chain, hp]
    | some p =>
      have hnext := ih p
      rw [depth.go, hp, chain, hp, List.length_cons, ← hnext]

lemma isBefore_of_sublist {p a b : NodeId} (hab : List.Sublist [a, b] (d.children p)) :
    d.IsBefore a b := by
  obtain ⟨front, back, hc, ha, hb⟩ := List.cons_sublist_iff.mp hab
  obtain ⟨before, mid, rfl⟩ := List.append_of_mem ha
  obtain ⟨mid', after, rfl⟩ := List.append_of_mem (List.singleton_sublist.mp hb)
  exact ⟨p, before, mid ++ mid', after, by simpa using hc⟩

lemma pairwise_children (p : NodeId) : (d.children p).Pairwise d.IsBefore :=
  List.pairwise_iff_forall_sublist.mpr isBefore_of_sublist

lemma firstChild_eq (p : NodeId) : d.firstChild p = (d.children p).head? := by
  cases hf : d.firstChild p with
  | none => cases hs : d.size <;> simp [children, hf, siblingsFrom, hs]
  | some c =>
    have hp : p < d.size := by
      by_contra hge
      simp [firstChild_none_of_ge (Nat.not_lt.mp hge)] at hf
    obtain ⟨size, hsize⟩ := Nat.exists_eq_add_one.mpr (Nat.zero_lt_of_lt hp)
    simp [children, hf, siblingsFrom, hsize]

/-- Climbing to a next sibling does not depend on its bound once the way up ends within it. -/
theorem nextAfter_eq {scope n : NodeId} {bound larger : Nat} (hends : Ends d.parent bound (some n))
    (hle : bound ≤ larger) : d.nextAfter scope larger n = d.nextAfter scope bound n := by
  induction bound generalizing larger n with
  | zero => exact hends.elim
  | succ bound ih =>
    obtain ⟨larger, rfl⟩ : ∃ l, larger = l + 1 := ⟨larger - 1, by omega⟩
    have hnext : Ends d.parent bound (d.parent n) := hends.next_succ
    simp only [nextAfter]
    cases hp : d.parent n with
    | none => rfl
    | some p =>
      rw [hp] at hnext
      simp only [Option.bind_some]
      rw [ih hnext (by omega)]

namespace IsForest

variable (h : d.IsForest)
include h

lemma length_ancestors {n : NodeId} (hn : n < d.size) :
    (chain d.parent d.size (some n)).length = d.depth n + 1 := by
  obtain ⟨size, hsize⟩ := Nat.exists_eq_add_one.mpr (Nat.zero_lt_of_lt hn)
  have hends := h.ends_parent hn
  have hgo := depth_go_eq (d := d) size n
  rw [depth, hsize, hgo]
  rw [hsize] at hends
  exact congrArg List.length (chain_eq_of_ends hends (Nat.le_succ (size + 1))).symm

lemma depth_lt_size {n : NodeId} (hn : n < d.size) : d.depth n < d.size := by
  have hlength := h.length_ancestors hn
  have hnodup := chain_nodup h.acyclic d.size (some n)
  have hsub : chain d.parent d.size (some n) ⊆ List.range d.size := by
    intro m hm
    rw [List.mem_range]
    cases mem_chain_reach hm using Relation.ReflTransGen.casesOn with
    | refl => exact hn
    | tail _ hlast => exact h.parent_lt_size hlast
  have hle := (List.subperm_of_subset hnodup hsub).length_le
  rw [hlength, List.length_range] at hle
  omega

lemma depth_child {c p : NodeId} (hp : d.parent c = some p) : d.depth c = d.depth p + 1 := by
  have hc := lt_size_of_parent hp
  have hchild := h.length_ancestors hc
  have hparent := h.length_ancestors (h.parent_lt_size hp)
  obtain ⟨size, hsize⟩ := Nat.exists_eq_add_one.mpr (Nat.zero_lt_of_lt hc)
  have hends := h.ends_of_parent hp hsize
  have hstep : chain d.parent d.size (some c) = c :: chain d.parent d.size (some p) := by
    rw [chain_eq_of_ends hends (by omega : size ≤ d.size), hsize, chain, hp]
  rw [hstep, List.length_cons, hparent] at hchild
  omega

/-- What the levels below a node hold is below it. -/
theorem transGen_of_mem_levels {height : Nat} {n m : NodeId} (hm : m ∈ d.levels height n) :
    Relation.TransGen (Linked d.parent) m n := by
  induction height generalizing n with
  | zero => simp [levels] at hm
  | succ height ih =>
    obtain ⟨c, hc, hm⟩ := List.mem_flatMap.mp hm
    have hparent : Linked d.parent c n := h.mem_children.mp hc
    obtain rfl | hm := List.mem_cons.mp hm
    · exact .single hparent
    · exact .tail (ih hm) hparent

/-- Levels in plenty hold everything that is below a node. -/
theorem mem_levels {height : Nat} {n m : NodeId} (hheight : d.size ≤ d.depth n + height) :
    m ∈ d.levels height n ↔ Relation.TransGen (Linked d.parent) m n := by
  induction height generalizing n with
  | zero =>
    have hge : d.size ≤ n := by
      by_contra hlt
      have hdepth := h.depth_lt_size (Nat.not_le.mp hlt)
      omega
    refine ⟨h.transGen_of_mem_levels, fun hm => ?_⟩
    cases hm with
    | single hs => exact absurd (h.parent_lt_size hs) (Nat.not_lt.mpr hge)
    | tail _ hs => exact absurd (h.parent_lt_size hs) (Nat.not_lt.mpr hge)
  | succ height ih =>
    refine ⟨h.transGen_of_mem_levels, fun hm => ?_⟩
    obtain ⟨c, hm, hparent⟩ := Relation.TransGen.tail'_iff.mp hm
    refine List.mem_flatMap.mpr ⟨c, h.mem_children.mpr hparent, List.mem_cons.mpr ?_⟩
    obtain rfl | hm := Relation.reflTransGen_iff_eq_or_transGen.mp hm
    · exact .inl rfl
    · have hdepth := h.depth_child hparent
      exact .inr ((ih (by omega)).mpr hm)

lemma pairwise_levels (height : Nat) (n : NodeId) : (d.levels height n).Pairwise d.Precedes := by
  induction height generalizing n with
  | zero => exact .nil
  | succ height ih =>
    have hbelow : ∀ {c m}, m ∈ c :: d.levels height c →
        Relation.ReflTransGen (Linked d.parent) m c := by
      intro c m hm
      obtain rfl | hm := List.mem_cons.mp hm
      · exact .refl
      · exact (h.transGen_of_mem_levels hm).to_reflTransGen
    refine List.pairwise_flatMap.mpr ⟨fun c _ => ?_, ?_⟩
    · exact List.pairwise_cons.mpr ⟨fun m hm => .inl (h.transGen_of_mem_levels hm), ih c⟩
    · refine (pairwise_children n).imp fun {x y} hxy a ha b hb => ?_
      exact .inr ⟨x, y, hxy, hbelow ha, hbelow hb⟩

/-- The node after the subtree of a node, within the subtree of `scope`. -/
theorem nextAfter_child {scope c p : NodeId} (hc : c ≠ scope) (hp : d.parent c = some p) :
    d.nextAfter scope (d.size + 1) c =
      (d.nextSibling c).or (d.nextAfter scope (d.size + 1) p) := by
  have hends := h.ends_parent (h.parent_lt_size hp)
  rw [nextAfter, if_neg hc, hp, Option.bind_some, nextAfter_eq hends (Nat.le_succ _)]
  cases d.nextSibling c <;> rfl

/-- From a child on, the walk writes down the subtrees of the child and of its later siblings. -/
theorem preorderFrom_siblings {scope p : NodeId} {height : Nat}
    (hscope : ∀ c, d.parent c = some p → c ≠ scope)
    (hchild : ∀ c, d.parent c = some p → ∀ bound,
      d.preorderFrom scope (bound + (c :: d.levels height c).length) (some c) =
        (c :: d.levels height c) ++
          d.preorderFrom scope bound (d.nextAfter scope (d.size + 1) c)) :
    ∀ {after before : List NodeId} {c : NodeId}, d.children p = before ++ c :: after → ∀ bound,
      d.preorderFrom scope
          (bound + ((c :: after).flatMap fun c => c :: d.levels height c).length) (some c) =
        ((c :: after).flatMap fun c => c :: d.levels height c) ++
          d.preorderFrom scope bound (d.nextAfter scope (d.size + 1) p) := by
  intro after
  induction after with
  | nil =>
    intro before c hc bound
    have hp := h.parent_of_split hc
    have hnext := h.nextAfter_child (hscope c hp) hp
    rw [(h.siblings hc).2, List.head?_nil, Option.none_or] at hnext
    rw [List.flatMap_singleton, hchild c hp, hnext]
  | cons c' after ih =>
    intro before c hc bound
    have hp := h.parent_of_split hc
    have hnext := h.nextAfter_child (hscope c hp) hp
    rw [(h.siblings hc).2, List.head?_cons, Option.some_or] at hnext
    have hrest := ih (by simpa using hc : d.children p = (before ++ [c]) ++ c' :: after) bound
    rw [List.flatMap_cons, List.length_append, Nat.add_comm (List.length _), ← Nat.add_assoc,
      hchild c hp, hnext, hrest, List.append_assoc]

/-- From a node on, the walk writes down the subtree of the node and goes on after it. -/
theorem preorderFrom_levels {scope n : NodeId} {height : Nat}
    (hheight : d.size ≤ d.depth n + height) (hn : Relation.TransGen (Linked d.parent) n scope)
    (bound : Nat) :
    d.preorderFrom scope (bound + (n :: d.levels height n).length) (some n) =
      (n :: d.levels height n) ++
        d.preorderFrom scope bound (d.nextAfter scope (d.size + 1) n) := by
  induction height generalizing n bound with
  | zero =>
    have hlt : n < d.size := by
      obtain ⟨p, hp, -⟩ := Relation.TransGen.head'_iff.mp hn
      exact lt_size_of_parent hp
    have hdepth := h.depth_lt_size hlt
    omega
  | succ height ih =>
    have hbelow : ∀ c, d.parent c = some n → Relation.TransGen (Linked d.parent) c scope :=
      fun c hc => .head hc hn
    have hchild : ∀ c, d.parent c = some n → ∀ bound,
        d.preorderFrom scope (bound + (c :: d.levels height c).length) (some c) =
          (c :: d.levels height c) ++
            d.preorderFrom scope bound (d.nextAfter scope (d.size + 1) c) := by
      intro c hc bound
      have hdepth := h.depth_child hc
      exact ih (by omega) (hbelow c hc) bound
    have hscope : ∀ c, d.parent c = some n → c ≠ scope := by
      rintro c hc rfl
      exact h.acyclic _ (hbelow _ hc)
    rw [List.length_cons, ← Nat.add_assoc, preorderFrom, nextInPreorder, firstChild_eq, levels]
    cases hc : d.children n with
    | nil => simp
    | cons c after =>
      have hsplit : d.children n = [] ++ c :: after := hc
      have hsiblings := h.preorderFrom_siblings hscope hchild hsplit bound
      rw [List.head?_cons, hsiblings, List.cons_append]

lemma not_precedes_self (n : NodeId) : ¬ d.Precedes n n := by
  have hapart : ∀ {x y p}, d.parent x = some p → d.parent y = some p → x ≠ y →
      ¬ Relation.ReflTransGen (Linked d.parent) x y := by
    intro x y p hx hy hne hreach
    obtain heq | ⟨q, hq, hreach⟩ := Relation.ReflTransGen.cases_head hreach
    · exact hne heq
    · obtain rfl := Option.some.inj (hx.symm.trans hq)
      exact h.acyclic y (.head' hy hreach)
  have hunique : Relator.RightUnique (Linked d.parent) := fun _ _ _ ha hb =>
    Option.some.inj (ha.symm.trans hb)
  rintro (hn | ⟨x, y, hxy, hx, hy⟩)
  · exact h.acyclic n hn
  · -- the ways up from `n` to the two siblings are one way
    obtain ⟨p, hpx, hpy, hlt⟩ := h.idxOf_lt_of_isBefore hxy
    have hne : x ≠ y := by
      rintro rfl
      exact Nat.lt_irrefl _ hlt
    obtain hreach | hreach := Relation.ReflTransGen.total_of_right_unique hunique hx hy
    · exact hapart hpx hpy hne hreach
    · exact hapart hpy hpx hne.symm hreach

lemma nodup_levels (height : Nat) (n : NodeId) : (d.levels height n).Nodup := by
  refine (h.pairwise_levels height n).imp ?_
  rintro a _ hab rfl
  exact h.not_precedes_self a hab

lemma length_levels_lt (height : Nat) {n : NodeId} (hn : n < d.size) :
    (d.levels height n).length < d.size := by
  have hnodup : (n :: d.levels height n).Nodup := by
    refine List.nodup_cons.mpr ⟨fun hmem => ?_, h.nodup_levels height n⟩
    exact h.acyclic n (h.transGen_of_mem_levels hmem)
  have hsub : n :: d.levels height n ⊆ List.range d.size := by
    intro m hm
    obtain rfl | hm := List.mem_cons.mp hm
    · exact List.mem_range.mpr hn
    · obtain ⟨p, hp, -⟩ := Relation.TransGen.head'_iff.mp (h.transGen_of_mem_levels hm)
      exact List.mem_range.mpr (lt_size_of_parent hp)
  have hle := (List.subperm_of_subset hnodup hsub).length_le
  rwa [List.length_cons, List.length_range] at hle

/-- The walk below a node writes down everything below it in preorder, and then it ends. -/
theorem preorderFrom_firstChild {n : NodeId} {height bound : Nat}
    (hheight : d.size ≤ d.depth n + height) (hbound : d.size ≤ bound) :
    d.preorderFrom n bound (d.firstChild n) = d.levels height n := by
  rw [firstChild_eq]
  cases hc : d.children n with
  | nil => cases height <;> cases bound <;> simp [preorderFrom, levels, hc]
  | cons c after =>
    have hn : n < d.size := h.parent_lt_size (h.mem_children.mp (by simp [hc] : c ∈ d.children n))
    have hpositive : 0 < height := by
      have hdepth := h.depth_lt_size hn
      omega
    obtain ⟨height, rfl⟩ := Nat.exists_eq_add_one.mpr hpositive
    have hchild : ∀ c, d.parent c = some n → ∀ bound,
        d.preorderFrom n (bound + (c :: d.levels height c).length) (some c) =
          (c :: d.levels height c) ++ d.preorderFrom n bound (d.nextAfter n (d.size + 1) c) := by
      intro c hp bound
      have hdepth := h.depth_child hp
      exact h.preorderFrom_levels (by omega) (.single hp) bound
    have hscope : ∀ c, d.parent c = some n → c ≠ n := by
      rintro c hp rfl
      exact h.acyclic _ (.single hp)
    have hsplit : d.children n = [] ++ c :: after := hc
    have hle := Nat.le_trans (Nat.le_of_lt (h.length_levels_lt (height + 1) hn)) hbound
    have hwalk := h.preorderFrom_siblings hscope hchild hsplit
      (bound - (d.levels (height + 1) n).length)
    rw [levels, hc] at hle hwalk
    rw [Nat.sub_add_cancel hle, nextAfter, if_pos rfl] at hwalk
    rw [List.head?_cons, hwalk, levels, hc]
    cases bound - _ <;> simp [preorderFrom]

lemma descendants_eq_levels {n : NodeId} {height : Nat} (hheight : d.size ≤ d.depth n + height) :
    d.descendants n = d.levels height n :=
  h.preorderFrom_firstChild hheight (Nat.le_refl _)

lemma mem_descendants {n m : NodeId} :
    m ∈ d.descendants n ↔ Relation.TransGen (Linked d.parent) m n := by
  have hheight : d.size ≤ d.depth n + d.size := Nat.le_add_left _ _
  rw [h.descendants_eq_levels hheight, h.mem_levels hheight]

lemma pairwise_descendants (n : NodeId) : (d.descendants n).Pairwise d.Precedes := by
  rw [h.descendants_eq_levels (Nat.le_add_left d.size (d.depth n))]
  exact h.pairwise_levels d.size n

lemma mem_descendantElements {n m : NodeId} :
    m ∈ d.descendantElements n ↔
      Relation.TransGen (Linked d.parent) m n ∧ d.isElement m = true := by
  rw [descendantElements, List.mem_filter, h.mem_descendants]

lemma pairwise_descendantElements (n : NodeId) :
    (d.descendantElements n).Pairwise d.Precedes :=
  (h.pairwise_descendants n).filter _

lemma nodup_descendantElements (n : NodeId) : (d.descendantElements n).Nodup := by
  refine (h.pairwise_descendantElements n).imp ?_
  rintro a _ hab rfl
  exact h.not_precedes_self a hab

end IsForest

end Document

end TreeQuery
