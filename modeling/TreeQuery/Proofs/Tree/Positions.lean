import TreeQuery.Tree.Order
import TreeQuery.Proofs.Tree.Preorder

/-!
# Positions

The path of a node is that of its parent followed by the number of siblings before it, so comparing
paths number by number compares nodes in document order.
-/

namespace TreeQuery

lemma pathLe_append (front as bs : List Nat) :
    pathLe (front ++ as) (front ++ bs) = pathLe as bs := by
  induction front with
  | nil => rfl
  | cons a front ih => simp [pathLe, ih]

lemma pathLe_self (path : List Nat) : pathLe path path = true := by
  have hself := pathLe_append path [] []
  rw [List.append_nil] at hself
  exact hself

namespace Document

variable {d : Document}

lemma pathTo_go_eq (bound : Nat) (n : NodeId) (below : List Nat) :
    pathTo.go d bound n below = pathTo.go d bound n [] ++ below := by
  induction bound generalizing n below with
  | zero => rfl
  | succ bound ih =>
    cases hp : d.parent n with
    | none => simp [pathTo.go, hp]
    | some p =>
      simp only [pathTo.go, hp]
      rw [ih p (d.siblingIndex n :: below), ih p [d.siblingIndex n]]
      simp

lemma pathTo_go_of_ends {bound larger : Nat} {n : NodeId} (hends : Ends d.parent bound (some n))
    (hle : bound ≤ larger) : pathTo.go d larger n [] = pathTo.go d bound n [] := by
  induction bound generalizing larger n with
  | zero => exact hends.elim
  | succ bound ih =>
    obtain ⟨larger, rfl⟩ : ∃ l, larger = l + 1 := ⟨larger - 1, by omega⟩
    have hnext : Ends d.parent bound (d.parent n) := hends.next_succ
    cases hp : d.parent n with
    | none => simp [pathTo.go, hp]
    | some p =>
      rw [hp] at hnext
      simp only [pathTo.go, hp]
      rw [pathTo_go_eq, pathTo_go_eq bound, ih hnext (by omega)]

lemma reflTransGen_rootOf (d : Document) (n : NodeId) :
    Relation.ReflTransGen (Linked d.parent) n (d.rootOf n) := by
  rw [rootOf]
  cases hroot : seek d.parent (fun a => (d.parent a).isNone) d.size (some n) with
  | none => exact .refl
  | some r => exact reach_of_seek hroot

namespace IsForest

variable (h : d.IsForest)
include h

lemma siblingIndex_go_of_split {p : NodeId} {before after : List NodeId} {c : NodeId}
    {bound : Nat} (hc : d.children p = before ++ c :: after) (hb : before.length < bound) :
    siblingIndex.go d bound c = before.length := by
  induction before using List.reverseRecOn generalizing c after bound with
  | nil =>
    obtain ⟨bound, rfl⟩ : ∃ b, bound = b + 1 := ⟨bound - 1, by omega⟩
    simp [siblingIndex.go, (h.siblings hc).1]
  | append_singleton before x ih =>
    rw [List.length_append, List.length_singleton] at hb ⊢
    obtain ⟨bound, rfl⟩ : ∃ b, bound = b + 1 := ⟨bound - 1, by omega⟩
    have hx : d.children p = before ++ x :: c :: after := by simpa using hc
    have hprevious := (h.siblings hc).1
    rw [List.getLast?_concat] at hprevious
    simp only [siblingIndex.go, hprevious]
    rw [ih hx (by omega)]

lemma siblingIndex_of_split {p : NodeId} {before after : List NodeId} {c : NodeId}
    (hc : d.children p = before ++ c :: after) : d.siblingIndex c = before.length := by
  have hlen := h.length_children_le p
  rw [hc, List.length_append, List.length_cons] at hlen
  exact h.siblingIndex_go_of_split hc (by omega)

lemma siblingIndex_lt {x y : NodeId} (hxy : d.IsBefore x y) :
    d.siblingIndex x < d.siblingIndex y := by
  obtain ⟨p, before, mid, after, hc⟩ := hxy
  have hx : d.children p = before ++ x :: (mid ++ y :: after) := by simpa using hc
  rw [h.siblingIndex_of_split hc, h.siblingIndex_of_split hx]
  simp

lemma pathTo_child {c p : NodeId} (hp : d.parent c = some p) :
    d.pathTo c = d.pathTo p ++ [d.siblingIndex c] := by
  have hc := lt_size_of_parent hp
  obtain ⟨size, hsize⟩ := Nat.exists_eq_add_one.mpr (Nat.zero_lt_of_lt hc)
  have hends := h.ends_of_parent hp hsize
  have hlarger := pathTo_go_of_ends hends (Nat.le_succ size)
  rw [pathTo, pathTo, hsize, hlarger]
  simp only [pathTo.go, hp]
  exact pathTo_go_eq size p _

/-- The path of a node starts with the path of each node above it. -/
theorem pathTo_of_reflTransGen {m n : NodeId} (hm : Relation.ReflTransGen (Linked d.parent) m n) :
    ∃ rest, d.pathTo m = d.pathTo n ++ rest := by
  induction hm using Relation.ReflTransGen.head_induction_on with
  | refl => exact ⟨[], by simp⟩
  | head hp _ ih =>
    obtain ⟨rest, hrest⟩ := ih
    exact ⟨rest ++ [d.siblingIndex _], by rw [h.pathTo_child hp, hrest, List.append_assoc]⟩

/-- Document order is the order of paths. -/
theorem pathLe_of_precedes {a b : NodeId} (hab : d.Precedes a b) :
    pathLe (d.pathTo a) (d.pathTo b) = true ∧ pathLe (d.pathTo b) (d.pathTo a) = false := by
  obtain hb | ⟨x, y, hxy, ha, hb⟩ := hab
  · obtain ⟨c, hbc, hc⟩ := Relation.TransGen.tail'_iff.mp hb
    obtain ⟨rest, hrest⟩ := h.pathTo_of_reflTransGen hbc
    rw [h.pathTo_child hc, List.append_assoc, List.singleton_append] at hrest
    have hself : d.pathTo a = d.pathTo a ++ [] := (List.append_nil _).symm
    rw [hrest]
    constructor
    · rw [hself, List.append_assoc, pathLe_append]
      rfl
    · nth_rewrite 2 [hself]
      rw [pathLe_append]
      rfl
  · obtain ⟨p, hpx, hpy, -⟩ := h.idxOf_lt_of_isBefore hxy
    have hlt := h.siblingIndex_lt hxy
    obtain ⟨as, has⟩ := h.pathTo_of_reflTransGen ha
    obtain ⟨bs, hbs⟩ := h.pathTo_of_reflTransGen hb
    rw [has, hbs, h.pathTo_child hpx, h.pathTo_child hpy]
    simp only [List.append_assoc, List.singleton_append, pathLe_append, pathLe]
    constructor
    · simp [hlt]
    · have hle := Nat.le_of_lt hlt
      have hne := Nat.ne_of_gt hlt
      simp [hle, hne]

lemma rootOf_child {c p : NodeId} (hp : d.parent c = some p) : d.rootOf c = d.rootOf p := by
  have hends := h.ends_parent (lt_size_of_parent hp)
  have hstep : seek d.parent (fun a => (d.parent a).isNone) d.size (some c) =
      seek d.parent (fun a => (d.parent a).isNone) d.size (some p) := by
    rw [seek_some_of_ends hends, hp]
    rfl
  have htop : (seek d.parent (fun a => (d.parent a).isNone) d.size (some p)).isSome := by
    have hends := h.ends_parent (h.parent_lt_size hp)
    obtain ⟨m, hreach, hm⟩ := exists_end_of_ends hends
    exact (seek_isSome_iff hends).mpr ⟨m, hreach, by simp [hm]⟩
  obtain ⟨r, hr⟩ := Option.isSome_iff_exists.mp htop
  rw [rootOf, rootOf, hstep, hr]
  rfl

lemma rootOf_of_reflTransGen {m n : NodeId}
    (hm : Relation.ReflTransGen (Linked d.parent) m n) : d.rootOf m = d.rootOf n := by
  induction hm with
  | refl => rfl
  | tail _ hp ih => exact ih.trans (h.rootOf_child hp)

lemma rootOf_of_transGen {m n : NodeId} (hm : Relation.TransGen (Linked d.parent) m n) :
    d.rootOf m = d.rootOf n :=
  h.rootOf_of_reflTransGen hm.to_reflTransGen

/-- Two nodes stand in one tree when the root of one of them is the other or above it. -/
theorem rootOf_eq_rootOf_iff {n m : NodeId} :
    d.rootOf n = d.rootOf m ↔ Relation.ReflTransGen (Linked d.parent) n (d.rootOf m) := by
  constructor
  · exact fun heq => heq ▸ d.reflTransGen_rootOf n
  · intro hreach
    exact (h.rootOf_of_reflTransGen hreach).trans
      (h.rootOf_of_reflTransGen (d.reflTransGen_rootOf m)).symm

lemma depth_le {m n : NodeId} (hm : Relation.ReflTransGen (Linked d.parent) m n) :
    d.depth n ≤ d.depth m := by
  induction hm with
  | refl => exact Nat.le_refl _
  | tail _ hp ih =>
    have hdepth := h.depth_child hp
    omega

lemma depth_lt {m n : NodeId} (hm : Relation.TransGen (Linked d.parent) m n) :
    d.depth n < d.depth m := by
  obtain ⟨p, hp, hreach⟩ := Relation.TransGen.head'_iff.mp hm
  have hdepth := h.depth_child hp
  have hle := h.depth_le hreach
  omega

lemma eq_of_depth_eq {m n : NodeId} (hm : Relation.ReflTransGen (Linked d.parent) m n)
    (hdepth : d.depth m = d.depth n) : m = n := by
  obtain heq | hm := Relation.reflTransGen_iff_eq_or_transGen.mp hm
  · exact heq.symm
  · exact absurd hdepth (Nat.ne_of_gt (h.depth_lt hm))

lemma not_below_both {x y n : NodeId} (hxy : d.IsBefore x y)
    (hx : Relation.ReflTransGen (Linked d.parent) n x) :
    ¬ Relation.ReflTransGen (Linked d.parent) n y := fun hy =>
  h.not_precedes_self n (.inr ⟨x, y, hxy, hx, hy⟩)

/-- A climb of as many steps as a node is deeper than the target above it meets the target. -/
theorem climb_target {target n : NodeId} {steps : Nat}
    (hn : Relation.TransGen (Linked d.parent) n target)
    (hsteps : d.depth n = d.depth target + steps) :
    d.climb target steps n = some (true, target) := by
  induction steps generalizing n with
  | zero => exact absurd hsteps (Nat.ne_of_gt (h.depth_lt hn))
  | succ steps ih =>
    obtain ⟨p, hp, hreach⟩ := Relation.TransGen.head'_iff.mp hn
    have hdepth := h.depth_child hp
    rw [climb, show d.parent n = some p from hp]
    obtain rfl | hreach := Relation.reflTransGen_iff_eq_or_transGen.mp hreach
    · simp
    · have hne : p ≠ target := by
        rintro rfl
        exact h.acyclic p hreach
      simp only [if_neg hne]
      exact ih hreach (by omega)

/-- A climb past other nodes ends at the node that is as many steps above. -/
theorem climb_past (target : NodeId) {n m : NodeId} {steps : Nat}
    (hn : Relation.ReflTransGen (Linked d.parent) n m) (hsteps : d.depth n = d.depth m + steps)
    (htarget : ¬ Relation.ReflTransGen (Linked d.parent) n target) :
    d.climb target steps n = some (false, m) := by
  induction steps generalizing n with
  | zero => rw [climb, h.eq_of_depth_eq hn hsteps]
  | succ steps ih =>
    have hne : n ≠ m := by
      rintro rfl
      omega
    obtain heq | ⟨p, hp, hreach⟩ := Relation.ReflTransGen.cases_head hn
    · exact absurd heq hne
    · have hdepth := h.depth_child hp
      have habove : ¬ Relation.ReflTransGen (Linked d.parent) p target := fun hreach =>
        htarget (.head hp hreach)
      have hp' : p ≠ target := fun heq => habove (heq ▸ .refl)
      rw [climb, show d.parent n = some p from hp]
      simp only [if_neg hp']
      exact ih hreach (by omega) habove

/-- Climbs from two nodes of one depth end at the siblings that they are below. -/
theorem meet_eq {x y p a b : NodeId} {steps bound : Nat} (hx : d.parent x = some p)
    (hy : d.parent y = some p)
    (hapart : ∀ n, Relation.ReflTransGen (Linked d.parent) n x →
      ¬ Relation.ReflTransGen (Linked d.parent) n y)
    (ha : Relation.ReflTransGen (Linked d.parent) a x)
    (hb : Relation.ReflTransGen (Linked d.parent) b y) (hsame : d.depth a = d.depth b)
    (hsteps : d.depth a = d.depth x + steps) (hbound : steps < bound) :
    d.meet bound a b = some (x, y) := by
  obtain ⟨bound, rfl⟩ : ∃ l, bound = l + 1 := ⟨bound - 1, by omega⟩
  have hlevel : d.depth x = d.depth y := by rw [h.depth_child hx, h.depth_child hy]
  induction steps generalizing a b bound with
  | zero =>
    obtain rfl := h.eq_of_depth_eq ha hsteps
    obtain rfl := h.eq_of_depth_eq hb (by omega)
    rw [meet, if_pos (hx.trans hy.symm), hx]
    rfl
  | succ steps ih =>
    obtain ⟨bound, rfl⟩ : ∃ l, bound = l + 1 := ⟨bound - 1, by omega⟩
    obtain rfl | ⟨q, hq, haq⟩ := Relation.ReflTransGen.cases_head ha
    · omega
    obtain rfl | ⟨r, hr, hbr⟩ := Relation.ReflTransGen.cases_head hb
    · omega
    have hdepth := h.depth_child hq
    have hdepth' := h.depth_child hr
    have hne : d.parent a ≠ d.parent b := by
      rw [show d.parent a = some q from hq, show d.parent b = some r from hr]
      intro heq
      obtain rfl := Option.some.inj heq
      exact hapart q haq hbr
    rw [meet, if_neg hne, show d.parent a = some q from hq, show d.parent b = some r from hr]
    exact ih haq hbr (by omega) (by omega) bound (by omega)

/-- A search forward from a sibling finds the later siblings. -/
theorem seek_later {x y : NodeId} (hxy : d.IsBefore x y) :
    (seek d.nextSibling (· == y) d.size (d.nextSibling x)).isSome = true ∧
      (seek d.nextSibling (· == x) d.size (d.nextSibling y)).isSome = false := by
  obtain ⟨p, before, mid, after, hc⟩ := hxy
  have hx : d.children p = before ++ x :: (mid ++ y :: after) := by simpa using hc
  have hx' : d.children p = (before ++ [x]) ++ (mid ++ y :: after) := by simpa using hc
  have hy : d.children p = (before ++ x :: mid ++ [y]) ++ after := by simpa using hc
  have hlen := h.length_children_le p
  have hnodup := h.nodup_children p
  constructor
  · rw [hx', List.length_append] at hlen
    rw [(h.siblings hx).2, h.seek_next hx' (by omega)]
    simp
  · rw [hy, List.length_append] at hlen
    rw [(h.siblings hc).2, h.seek_next hy (by omega)]
    have hnot : x ∉ after := by
      intro hmem
      rw [hx] at hnodup
      have hcons := (List.nodup_append.mp hnodup).2.1
      exact (List.nodup_cons.mp hcons).1 (by simp [hmem])
    have hnone : after.find? (· == x) = none := by
      rw [List.find?_eq_none]
      intro z hz heq
      exact hnot (beq_iff_eq.mp heq ▸ hz)
    rw [hnone]
    rfl

lemma exists_at_depth {n m : NodeId} {level : Nat}
    (hn : Relation.ReflTransGen (Linked d.parent) n m) (hlow : d.depth m ≤ level)
    (hhigh : level ≤ d.depth n) :
    ∃ k, Relation.ReflTransGen (Linked d.parent) n k ∧
      Relation.ReflTransGen (Linked d.parent) k m ∧ d.depth k = level := by
  induction hn using Relation.ReflTransGen.head_induction_on with
  | refl => exact ⟨m, .refl, .refl, by omega⟩
  | @head n p hp hreach ih =>
    have hdepth := h.depth_child hp
    obtain heq | hlt := Nat.eq_or_lt_of_le hhigh
    · exact ⟨n, .refl, .head hp hreach, heq.symm⟩
    · obtain ⟨k, hk, hkm, hlevel⟩ := ih (by omega)
      exact ⟨k, .head hp hk, hkm, hlevel⟩

/-- From two nodes below two siblings the climbs and their meeting give the siblings. -/
theorem comparePosition_below {x y p a b : NodeId} (hx : d.parent x = some p)
    (hy : d.parent y = some p)
    (hapart : ∀ n, Relation.ReflTransGen (Linked d.parent) n x →
      ¬ Relation.ReflTransGen (Linked d.parent) n y)
    (ha : Relation.ReflTransGen (Linked d.parent) a x)
    (hb : Relation.ReflTransGen (Linked d.parent) b y) :
    d.comparePosition a b =
      if (seek d.nextSibling (· == y) d.size (d.nextSibling x)).isSome then some .lt
      else some .gt := by
  have hne : a ≠ b := by
    rintro rfl
    exact hapart a ha hb
  have hlevel : d.depth x = d.depth y := by rw [h.depth_child hx, h.depth_child hy]
  have hxa := h.depth_le ha
  have hyb := h.depth_le hb
  obtain ⟨a', haa', ha'x, hlow⟩ :=
    h.exists_at_depth ha (by omega : d.depth x ≤ min (d.depth a) (d.depth b)) (by omega)
  obtain ⟨b', hbb', hb'y, hlow'⟩ :=
    h.exists_at_depth hb (by omega : d.depth y ≤ min (d.depth a) (d.depth b)) (by omega)
  have hclimb := h.climb_past b haa'
    (by omega : d.depth a = d.depth a' + (d.depth a - d.depth b))
    fun hab => hapart a ha (hab.trans hb)
  have hclimb' := h.climb_past a hbb'
    (by omega : d.depth b = d.depth b' + (d.depth b - d.depth a))
    fun hba => hapart b (hba.trans ha) hb
  have ha'lt : a' < d.size := by
    obtain rfl | ⟨q, hq, -⟩ := Relation.ReflTransGen.cases_head ha'x
    · exact lt_size_of_parent hx
    · exact lt_size_of_parent hq
  have hbound := h.depth_lt_size ha'lt
  have hmeet := h.meet_eq hx hy hapart ha'x hb'y (hlow.trans hlow'.symm)
    (by omega : d.depth a' = d.depth x + (d.depth a' - d.depth x)) (by omega : _ < d.size)
  rw [comparePosition, if_neg hne, hclimb, hclimb']
  simp only [hmeet, Option.map_some]
  split <;> rfl

/-- The comparison of positions is document order. -/
theorem comparePosition_of_precedes {a b : NodeId} (hab : d.Precedes a b) :
    d.comparePosition a b = some .lt ∧ d.comparePosition b a = some .gt := by
  have hne : a ≠ b := by
    rintro rfl
    exact h.not_precedes_self a hab
  obtain hb | ⟨x, y, hxy, ha, hb⟩ := hab
  · have hlt := h.depth_lt hb
    have htarget := h.climb_target hb (by omega : d.depth b = d.depth a + (d.depth b - d.depth a))
    have hzero : d.depth a - d.depth b = 0 := by omega
    have hstay : d.climb b (d.depth a - d.depth b) a = some (false, a) := by rw [hzero, climb]
    constructor
    · rw [comparePosition, if_neg hne, hstay, htarget]
    · rw [comparePosition, if_neg hne.symm, htarget]
  · obtain ⟨p, hx, hy, -⟩ := h.idxOf_lt_of_isBefore hxy
    obtain ⟨hlater, hearlier⟩ := h.seek_later hxy
    have hapart : ∀ n, Relation.ReflTransGen (Linked d.parent) n x →
        ¬ Relation.ReflTransGen (Linked d.parent) n y := fun n => h.not_below_both hxy
    constructor
    · rw [h.comparePosition_below hx hy hapart ha hb, if_pos hlater]
    · rw [h.comparePosition_below hy hx (fun n hny hnx => hapart n hnx hny) hb ha, hearlier]
      rfl

end IsForest

end Document

end TreeQuery
