import TreeQuery.Proofs.Tree.Order
import TreeQuery.Proofs.Tree.Positions

/-!
# Document order

Putting nodes of one tree into document order gives the one list of them in which every node comes
before the later ones.
-/

namespace TreeQuery

lemma dropRepeats_sublist (xs : List NodeId) : List.Sublist (dropRepeats xs) xs := by
  fun_induction dropRepeats xs with
  | case1 y rest ih => exact ih.trans (List.sublist_cons_self _ _)
  | case2 y z rest hne ih => exact ih.cons_cons y
  | case3 xs hxs => exact List.Sublist.refl xs

/-- In a list that is sorted by a key, repeats stand side by side. -/
theorem pairwise_dropRepeats {key : NodeId → Nat} {xs : List NodeId}
    (hinj : ∀ a ∈ xs, ∀ b ∈ xs, key a = key b → a = b)
    (hsorted : xs.Pairwise fun a b => key a ≤ key b) :
    (dropRepeats xs).Pairwise fun a b => key a < key b := by
  fun_induction dropRepeats xs with
  | case1 y rest ih =>
    have hrest := (List.pairwise_cons.mp hsorted).2
    exact ih (fun a ha b hb => hinj a (List.mem_cons_of_mem _ ha) b (List.mem_cons_of_mem _ hb)) hrest
  | case2 y z rest hne ih =>
    obtain ⟨hfirst, hrest⟩ := List.pairwise_cons.mp hsorted
    have hinj' : ∀ a ∈ z :: rest, ∀ b ∈ z :: rest, key a = key b → a = b :=
      fun a ha b hb => hinj a (List.mem_cons_of_mem _ ha) b (List.mem_cons_of_mem _ hb)
    refine List.pairwise_cons.mpr ⟨fun m hm => ?_, ih hinj' hrest⟩
    have hmem := (dropRepeats_sublist _).subset hm
    have hz : key y < key z := by
      have hle := hfirst z List.mem_cons_self
      have hkey : key y ≠ key z := fun heq =>
        hne (hinj y List.mem_cons_self z (List.mem_cons_of_mem _ List.mem_cons_self) heq)
      omega
    obtain rfl | hmem := List.mem_cons.mp hmem
    · exact hz
    · have hle := (List.pairwise_cons.mp hrest).1 m hmem
      omega
  | case3 xs hxs =>
    cases xs with
    | nil => exact .nil
    | cons x rest =>
      cases rest with
      | nil => exact List.pairwise_singleton _ _
      | cons y rest => exact absurd rfl (hxs x y rest)

/-- Sorting nodes along with keys sorts the nodes. -/
theorem map_snd_mergeSort {κ : Type} (key : NodeId → κ) {s : κ × NodeId → κ × NodeId → Bool}
    {r : NodeId → NodeId → Bool} {xs : List NodeId}
    (hs : ∀ a ∈ xs, ∀ b ∈ xs, r a b = s (key a, a) (key b, b)) :
    ((xs.map fun n => (key n, n)).mergeSort s).map (·.2) = xs.mergeSort r := by
  have hmap := List.map_mergeSort (f := fun n => (key n, n)) hs
  rw [← hmap, List.map_map]
  exact List.map_id _

lemma idxOf_lt_of_pairwise {R : NodeId → NodeId → Prop} {xs : List NodeId} (hxs : xs.Pairwise R)
    {a b : NodeId} (ha : a ∈ xs) (hb : b ∈ xs) (hlt : xs.idxOf a < xs.idxOf b) : R a b := by
  have hpair := List.pairwise_iff_getElem.mp hxs (xs.idxOf a) (xs.idxOf b)
    (List.idxOf_lt_length_of_mem ha) (List.idxOf_lt_length_of_mem hb) hlt
  rwa [List.getElem_idxOf, List.getElem_idxOf] at hpair

/-- Sorting by numbers puts the smaller numbers first. -/
theorem pairwise_mergeSort_le (key : NodeId → Nat) (xs : List NodeId) :
    (xs.mergeSort fun a b => key a ≤ key b).Pairwise fun a b => key a ≤ key b := by
  have htrans : ∀ a b c, decide (key a ≤ key b) → decide (key b ≤ key c) →
      decide (key a ≤ key c) := by
    intro a b c hab hbc
    simp only [decide_eq_true_eq] at hab hbc ⊢
    omega
  have htotal : ∀ a b, decide (key a ≤ key b) || decide (key b ≤ key a) := by
    intro a b
    simp only [Bool.or_eq_true, decide_eq_true_eq]
    omega
  exact (List.pairwise_mergeSort htrans htotal xs).imp of_decide_eq_true

lemma pairwise_idxOf_of_nodup {xs : List NodeId} (hxs : xs.Nodup) :
    xs.Pairwise fun a b => xs.idxOf a < xs.idxOf b := by
  rw [List.pairwise_iff_getElem]
  intro i j hi hj hij
  rwa [hxs.idxOf_getElem, hxs.idxOf_getElem]

/-- Whether `a` is written down before `b` when the trees with the given roots are written down one
after another. -/
def Document.ListedBefore (d : Document) (roots : List NodeId) (a b : NodeId) : Prop :=
  roots.idxOf (d.rootOf a) < roots.idxOf (d.rootOf b) ∨
    d.rootOf a = d.rootOf b ∧ d.Precedes a b

lemma Document.IsForest.not_listedBefore_self {d : Document} (hforest : d.IsForest)
    (roots : List NodeId) (n : NodeId) : ¬ d.ListedBefore roots n n := by
  rintro (hlt | ⟨-, hn⟩)
  · exact Nat.lt_irrefl _ hlt
  · exact hforest.not_precedes_self n hn

namespace Host

variable {h : Host}

/-- Whether what a host says about positions is document order, if it says anything. -/
def ComparesInOrder (h : Host) : Prop :=
  h.features.comparator = true →
    (∀ a, h.comparePosition a a = some .eq) ∧
      ∀ a b, h.document.Precedes a b →
        h.comparePosition a b = some .lt ∧ h.comparePosition b a = some .gt

section

variable {listing xs : List NodeId} (hforest : h.document.IsForest)
  (hlisting : listing.Pairwise (h.document.ListedBefore (h.roots xs)))
  (hxs : ∀ n ∈ xs, n ∈ listing)

include hlisting hxs in
/-- Of two different nodes of a listing, the one with the smaller place is listed before the other. -/
theorem listedBefore_or {a b : NodeId} (ha : a ∈ xs) (hb : b ∈ xs) (hne : a ≠ b) :
    listing.idxOf a ≤ listing.idxOf b ∧ h.document.ListedBefore (h.roots xs) a b ∨
      listing.idxOf b < listing.idxOf a ∧ h.document.ListedBefore (h.roots xs) b a := by
  obtain hlt | heq | hgt := Nat.lt_trichotomy (listing.idxOf a) (listing.idxOf b)
  · exact .inl ⟨Nat.le_of_lt hlt, idxOf_lt_of_pairwise hlisting (hxs a ha) (hxs b hb) hlt⟩
  · exact absurd ((List.idxOf_inj (hxs a ha)).mp heq) hne
  · exact .inr ⟨hgt, idxOf_lt_of_pairwise hlisting (hxs b hb) (hxs a ha) hgt⟩

include hlisting hxs in
/-- To compare places in a listing is to compare roots first, and the nodes of one tree by anything
that agrees with document order. -/
theorem listed_le_eq (order : NodeId → NodeId → Bool) (hsame : ∀ a, order a a = true)
    (horder : ∀ a b, h.document.Precedes a b → order a b = true ∧ order b a = false)
    {a b : NodeId} (ha : a ∈ xs) (hb : b ∈ xs) :
    decide (listing.idxOf a ≤ listing.idxOf b) =
      (decide ((h.roots xs).idxOf (h.document.rootOf a) <
          (h.roots xs).idxOf (h.document.rootOf b)) ||
        ((h.roots xs).idxOf (h.document.rootOf a) == (h.roots xs).idxOf (h.document.rootOf b) &&
          order a b)) := by
  by_cases hab : a = b
  · simp [hab, hsame]
  · obtain ⟨hle, hroots | ⟨hroot, hprecedes⟩⟩ | ⟨hlt, hroots | ⟨hroot, hprecedes⟩⟩ :=
      listedBefore_or hlisting hxs ha hb hab
    · simp [hle, hroots]
    · simp [hle, hroot, (horder a b hprecedes).1]
    · have hnot := Nat.not_le.mpr hlt
      simp [hnot, Nat.lt_asymm hroots, Nat.ne_of_gt hroots]
    · simp [hlt, hroot, (horder b a hprecedes).2]

include hlisting hxs in
lemma sortByComparator_eq (hsame : ∀ a, h.comparePosition a a = some .eq)
    (horder : ∀ a b, h.document.Precedes a b →
      h.comparePosition a b = some .lt ∧ h.comparePosition b a = some .gt) :
    h.sortByComparator xs = xs.mergeSort fun a b => listing.idxOf a ≤ listing.idxOf b := by
  refine map_snd_mergeSort _ fun a ha b hb => ?_
  refine listed_le_eq hlisting hxs (fun a b => h.comparePosition a b != some .gt)
    (fun a => ?_) (fun a b hab => ?_) ha hb
  · rw [hsame]
    rfl
  · obtain ⟨hlt, hgt⟩ := horder a b hab
    rw [hlt, hgt]
    exact ⟨rfl, rfl⟩

include hforest hlisting hxs

lemma sortByPath_eq :
    h.sortByPath xs = xs.mergeSort fun a b => listing.idxOf a ≤ listing.idxOf b := by
  refine map_snd_mergeSort _ fun a ha b hb => ?_
  exact listed_le_eq hlisting hxs
    (fun a b => pathLe (h.document.pathTo a) (h.document.pathTo b))
    (fun a => pathLe_self _) (fun a b => hforest.pathLe_of_precedes) ha hb

/-- The members of a listing come in the order of the listing. -/
theorem pairwise_uniqueSort (hcompare : h.ComparesInOrder) :
    (h.uniqueSort xs).Pairwise fun a b => listing.idxOf a < listing.idxOf b := by
  have hsorted := pairwise_mergeSort_le listing.idxOf xs
  have hinj : ∀ a ∈ xs.mergeSort fun a b => listing.idxOf a ≤ listing.idxOf b,
      ∀ b ∈ xs.mergeSort fun a b => listing.idxOf a ≤ listing.idxOf b,
        listing.idxOf a = listing.idxOf b → a = b := by
    intro a ha b _ heq
    exact (List.idxOf_inj (hxs a (List.mem_mergeSort.mp ha))).mp heq
  rw [uniqueSort]
  split
  · rename_i hshort
    match xs, hshort with
    | [], _ => exact .nil
    | [x], _ => exact List.pairwise_singleton _ _
  · have hsort : (if h.features.comparator = true then h.sortByComparator xs else h.sortByPath xs) =
        xs.mergeSort fun a b => listing.idxOf a ≤ listing.idxOf b := by
      split
      · rename_i hcomparator
        obtain ⟨hsame, horder⟩ := hcompare hcomparator
        exact sortByComparator_eq hlisting hxs hsame horder
      · exact sortByPath_eq hforest hlisting hxs
    rw [hsort]
    exact pairwise_dropRepeats hinj hsorted

/-- Sorting gives the members of a list in the order of a listing that has them all. -/
theorem uniqueSort_eq_filter_listing (hcompare : h.ComparesInOrder) :
    h.uniqueSort xs = listing.filter (xs.contains ·) := by
  have hnodup : listing.Nodup := by
    refine hlisting.imp ?_
    rintro a _ hab rfl
    exact hforest.not_listedBefore_self _ a hab
  have hsorted := pairwise_uniqueSort hforest hlisting hxs hcompare
  have hlisted := (pairwise_idxOf_of_nodup hnodup).filter (xs.contains ·)
  have hperm : (h.uniqueSort xs).Perm (listing.filter (xs.contains ·)) := by
    refine (List.perm_ext_iff_of_nodup ?_ (hnodup.filter _)).mpr fun n => ?_
    · exact hsorted.imp fun hlt heq => Nat.ne_of_lt hlt (congrArg listing.idxOf heq)
    · rw [mem_uniqueSort, List.mem_filter, List.contains_iff_mem]
      exact ⟨fun hn => ⟨hxs n hn, hn⟩, And.right⟩
  exact hperm.eq_of_pairwise (fun a b _ _ hab hba => absurd hab (Nat.lt_asymm hba)) hsorted hlisted

end

/-- Sorting gives the members of a list as they are written down below the scope. -/
theorem uniqueSort_eq_filter (hforest : h.document.IsForest) (hcompare : h.ComparesInOrder)
    {scope : NodeId} {xs : List NodeId} {keep : NodeId → Bool}
    (hxs : ∀ n, n ∈ xs ↔ n ∈ h.document.descendantElements scope ∧ keep n = true) :
    h.uniqueSort xs = (h.document.descendantElements scope).filter keep := by
  have hroot : ∀ n ∈ h.document.descendantElements scope,
      h.document.rootOf n = h.document.rootOf scope := fun n hn =>
    hforest.rootOf_of_transGen (hforest.mem_descendantElements.mp hn).1
  have hlisting : (h.document.descendantElements scope).Pairwise
      (h.document.ListedBefore (h.roots xs)) :=
    (hforest.pairwise_descendantElements scope).imp_of_mem fun ha hb hab =>
      .inr ⟨(hroot _ ha).trans (hroot _ hb).symm, hab⟩
  rw [uniqueSort_eq_filter_listing hforest hlisting (fun n hn => ((hxs n).mp hn).1) hcompare]
  refine List.filter_congr fun n hn => ?_
  rw [Bool.eq_iff_iff, List.contains_iff_mem, hxs, and_iff_right hn]

lemma uniqueSort_sublist (hforest : h.document.IsForest) (hcompare : h.ComparesInOrder)
    {scope : NodeId} {xs : List NodeId} (hxs : ∀ n ∈ xs, n ∈ h.document.descendantElements scope) :
    (h.uniqueSort xs).Sublist (h.document.descendantElements scope) := by
  have hmem : ∀ n, n ∈ xs ↔ n ∈ h.document.descendantElements scope ∧ xs.contains n = true := by
    intro n
    rw [List.contains_iff_mem]
    exact ⟨fun hn => ⟨hxs n hn, hn⟩, And.right⟩
  rw [uniqueSort_eq_filter hforest hcompare hmem]
  exact List.filter_sublist

end Host

end TreeQuery
