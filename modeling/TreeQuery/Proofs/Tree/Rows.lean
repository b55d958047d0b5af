import TreeQuery.Proofs.Tree.Links
import TreeQuery.Proofs.Tree.Preorder
import TreeQuery.Proofs.Tree.Orderly

/-!
# Rows of children

The links of a document write down a row of children for every node, several times over: forward
from the first child, backward from the last one, and upward from each child. Detaching a node takes
it out of the row it stands in and appending it puts it at the end of another; all copies follow,
whatever the document looks like. Nothing here asks that no node be above itself.
-/

namespace TreeQuery

/-- What stands in a list once is its last entry exactly if nothing follows. -/
theorem getLast?_eq_some_iff_of_split {before after : List NodeId} {n : NodeId} (hn : n ∉ after) :
    (before ++ n :: after).getLast? = some n ↔ after = [] := by
  cases after using List.reverseRecOn with
  | nil => simp
  | append_singleton after x =>
    have hne : x ≠ n := fun heq => hn (by simp [heq])
    rw [← List.cons_append, ← List.append_assoc, List.getLast?_concat]
    simp [hne]

namespace Document

/-- Whether the links of a document write down a row of children for every node. -/
structure Rows (d : Document) (rows : NodeId → List NodeId) : Prop where
  mem_iff : ∀ {p c}, c ∈ rows p ↔ d.parent c = some p
  nodup : ∀ p, (rows p).Nodup
  firstChild_eq : ∀ p, d.firstChild p = (rows p).head?
  lastChild_eq : ∀ p, d.lastChild p = (rows p).getLast?
  siblings : ∀ {p c before after}, rows p = before ++ c :: after →
    d.previousSibling c = before.getLast? ∧ d.nextSibling c = after.head?
  orphan : ∀ {n}, d.parent n = none → d.previousSibling n = none ∧ d.nextSibling n = none

/-- A forest is a document whose links write down its children, with no node above itself. -/
theorem isForest_iff {d : Document} :
    d.IsForest ↔ d.Rows d.children ∧ ∀ n, ¬ Relation.TransGen (Linked d.parent) n n :=
  ⟨fun h => ⟨⟨h.mem_children, h.nodup_children, firstChild_eq, h.lastChild_eq, h.siblings,
      h.orphan⟩, h.acyclic⟩,
    fun ⟨h, hacyclic⟩ => ⟨h.mem_iff, h.nodup, h.lastChild_eq, h.siblings, h.orphan, hacyclic⟩⟩

/-- Past the end of the arena there are no links, so rows of nodes of the arena need to be checked
there only. -/
theorem Rows.of_inside {d : Document} {rows : NodeId → List NodeId}
    (inside : ∀ {p c}, c ∈ rows p → p < d.size ∧ c < d.size)
    (mem_iff : ∀ {p c}, c < d.size → (c ∈ rows p ↔ d.parent c = some p))
    (nodup : ∀ p, (rows p).Nodup)
    (firstChild_eq : ∀ {p}, p < d.size → d.firstChild p = (rows p).head?)
    (lastChild_eq : ∀ {p}, p < d.size → d.lastChild p = (rows p).getLast?)
    (siblings : ∀ {p c before after}, rows p = before ++ c :: after →
      d.previousSibling c = before.getLast? ∧ d.nextSibling c = after.head?)
    (orphan : ∀ {n}, n < d.size → d.parent n = none →
      d.previousSibling n = none ∧ d.nextSibling n = none) : d.Rows rows := by
  have hempty : ∀ {p}, d.size ≤ p → rows p = [] := fun hp =>
    List.eq_nil_iff_forall_not_mem.mpr fun _ hc => Nat.not_lt.mpr hp (inside hc).1
  refine ⟨fun {p c} => ?_, nodup, fun p => ?_, fun p => ?_, siblings, fun {n} hn => ?_⟩
  · refine ⟨fun hc => (mem_iff (inside hc).2).mp hc, fun hc => ?_⟩
    exact (mem_iff (lt_size_of_parent hc)).mpr hc
  · obtain hp | hp := Nat.lt_or_ge p d.size
    · exact firstChild_eq hp
    · rw [hempty hp]
      exact bind_of_ge hp _
  · obtain hp | hp := Nat.lt_or_ge p d.size
    · exact lastChild_eq hp
    · rw [hempty hp]
      exact bind_of_ge hp _
  · obtain hlt | hge := Nat.lt_or_ge n d.size
    · exact orphan hlt hn
    · exact ⟨bind_of_ge hge _, bind_of_ge hge _⟩

lemma mem_row_with {rows : NodeId → List NodeId} {p q c m : NodeId} :
    m ∈ (if q = p then rows q ++ [c] else rows q) ↔ m ∈ rows q ∨ q = p ∧ m = c := by
  split <;> rename_i hq <;> simp [hq]

namespace Rows

variable {d : Document} {rows : NodeId → List NodeId} (h : d.Rows rows)
include h

lemma lt_size {p c : NodeId} (hc : c ∈ rows p) : c < d.size := lt_size_of_parent (h.mem_iff.mp hc)

lemma parent_lt_size {p c : NodeId} (hc : c ∈ rows p) : p < d.size := by
  by_contra hge
  have hfirst := h.firstChild_eq p
  rw [firstChild_none_of_ge (Nat.not_lt.mp hge), eq_comm, List.head?_eq_none_iff] at hfirst
  rw [hfirst] at hc
  cases hc

/-- A node stands in one row only. -/
theorem not_mem_of_ne {p q c : NodeId} (hc : c ∈ rows p) (hne : q ≠ p) : c ∉ rows q := fun hq =>
  hne (Option.some.inj ((h.mem_iff.mp hq).symm.trans (h.mem_iff.mp hc)))

lemma not_mem_of_orphan {c : NodeId} (hc : d.parent c = none) (q : NodeId) : c ∉ rows q := by
  rw [h.mem_iff, hc]
  exact nofun

lemma length_le (p : NodeId) : (rows p).length ≤ d.size := by
  have hsub : rows p ⊆ List.range d.size := fun c hc => List.mem_range.mpr (h.lt_size hc)
  simpa using (List.subperm_of_subset (h.nodup p) hsub).length_le

lemma apart {p c : NodeId} {before after : List NodeId} (hrow : rows p = before ++ c :: after) :
    c ∉ before ∧ c ∉ after ∧ before.Disjoint after := by
  have hnodup := h.nodup p
  rw [hrow, List.nodup_append] at hnodup
  obtain ⟨-, hrest, hapart⟩ := hnodup
  refine ⟨fun hc => hapart c hc c List.mem_cons_self rfl, (List.nodup_cons.mp hrest).1, ?_⟩
  exact fun x hx hx' => hapart x hx x (List.mem_cons_of_mem c hx') rfl

lemma lastChild_ne {p c : NodeId} (hc : c ∉ rows p) : d.lastChild p ≠ some c := fun hlast =>
  hc (List.mem_of_getLast? ((h.lastChild_eq p).symm.trans hlast))

lemma lastChild_eq_some_iff {p c : NodeId} {before after : List NodeId}
    (hrow : rows p = before ++ c :: after) : d.lastChild p = some c ↔ after = [] := by
  rw [h.lastChild_eq, hrow]
  exact getLast?_eq_some_iff_of_split (h.apart hrow).2.1

lemma siblingsFrom_eq {p : NodeId} {before after : List NodeId} {bound : Nat}
    (hrow : rows p = before ++ after) (hbound : after.length ≤ bound) :
    d.siblingsFrom bound after.head? = after := by
  induction after generalizing before bound with
  | nil => cases bound <;> rfl
  | cons c after ih =>
    rw [List.length_cons] at hbound
    obtain ⟨bound, rfl⟩ : ∃ b, bound = b + 1 := ⟨bound - 1, by omega⟩
    rw [List.head?_cons, siblingsFrom, (h.siblings hrow).2,
      ih (by simpa using hrow : rows p = (before ++ [c]) ++ after) (by omega)]

/-- The children that are met from the first child on are the row. -/
theorem children_eq (p : NodeId) : d.children p = rows p := by
  have hall : rows p = [] ++ rows p := rfl
  rw [children, h.firstChild_eq]
  exact h.siblingsFrom_eq hall (h.length_le p)

lemma rows_eq : d.children = rows := funext h.children_eq

lemma ends_nextSibling {p : NodeId} {before after : List NodeId} {bound : Nat}
    (hrow : rows p = before ++ after) (hbound : after.length ≤ bound) :
    Ends d.nextSibling bound after.head? := by
  induction after generalizing before bound with
  | nil => exact ends_none bound
  | cons c after ih =>
    rw [List.length_cons] at hbound
    obtain ⟨bound, rfl⟩ : ∃ b, bound = b + 1 := ⟨bound - 1, by omega⟩
    show Ends d.nextSibling bound (d.nextSibling c)
    rw [(h.siblings hrow).2]
    exact ih (by simpa using hrow : rows p = (before ++ [c]) ++ after) (by omega)

/-- The way back from the end of a row meets the row in reverse and ends. -/
theorem chain_previousSibling {p : NodeId} {before after : List NodeId} {bound : Nat}
    (hrow : rows p = before ++ after) (hbound : before.length ≤ bound) :
    Ends d.previousSibling bound before.getLast? ∧
      chain d.previousSibling bound before.getLast? = before.reverse := by
  induction before using List.reverseRecOn generalizing after bound with
  | nil => cases bound <;> exact ⟨trivial, rfl⟩
  | append_singleton before c ih =>
    rw [List.length_append, List.length_singleton] at hbound
    obtain ⟨bound, rfl⟩ : ∃ b, bound = b + 1 := ⟨bound - 1, by omega⟩
    have hc : rows p = before ++ c :: after := by simpa using hrow
    have hshorter : before.length ≤ bound := by omega
    obtain ⟨hends, hchain⟩ := ih hc hshorter
    rw [← (h.siblings hc).1] at hends hchain
    rw [List.getLast?_concat, List.reverse_concat, chain, hchain]
    exact ⟨hends, rfl⟩

/-- The neighbours of a node in a row from which another one was taken: those that lay on either side
of the one that was taken are neighbours of each other now. -/
theorem siblings_without {p n c : NodeId} {before after front back : List NodeId}
    (hrow : rows p = before ++ n :: after) (hc : before ++ after = front ++ c :: back) :
    (if after.head? = some c then before.getLast? else d.previousSibling c) = front.getLast? ∧
      (if before.getLast? = some c then after.head? else d.nextSibling c) = back.head? := by
  obtain ⟨-, -, hapart⟩ := h.apart hrow
  -- `c` stands behind the node that was taken, or before it
  have hbehind : ∀ {mid}, front = before ++ mid → after = mid ++ c :: back →
      (if after.head? = some c then before.getLast? else d.previousSibling c) = front.getLast? ∧
        (if before.getLast? = some c then after.head? else d.nextSibling c) = back.head? := by
    rintro mid rfl rfl
    have hsplit : rows p = (before ++ n :: mid) ++ c :: back := by simpa using hrow
    obtain ⟨hprevious, hnext⟩ := h.siblings hsplit
    obtain ⟨hfront, -, -⟩ := h.apart hsplit
    have hlast : before.getLast? ≠ some c := fun hlast =>
      hapart (List.mem_of_getLast? hlast) (by simp)
    rw [if_neg hlast, hprevious, hnext]
    cases mid with
    | nil => simp
    | cons x mid =>
      have hx : x ≠ c := fun heq => hfront (by simp [heq])
      simp [hx]
  obtain ⟨mid, hfront, hafter⟩ | ⟨mid, rfl, hback⟩ := List.append_eq_append_iff.mp hc
  · exact hbehind hfront hafter
  · cases mid with
    | nil => exact hbehind (by simp : front = front ++ [] ++ []) hback.symm
    | cons x mid =>
      obtain ⟨rfl, rfl⟩ := List.cons.inj hback
      have hsplit : rows p = front ++ c :: (mid ++ n :: after) := by simpa using hrow
      obtain ⟨hprevious, hnext⟩ := h.siblings hsplit
      obtain ⟨-, hmid, -⟩ := h.apart hsplit
      have hhead : after.head? ≠ some c := fun hhead =>
        hapart (List.mem_append_right front List.mem_cons_self) (List.mem_of_head? hhead)
      have hlast : (front ++ c :: mid).getLast? = some c ↔ mid = [] :=
        getLast?_eq_some_iff_of_split fun hc => hmid (List.mem_append_left _ hc)
      rw [if_neg hhead, hprevious, hnext, if_congr hlast rfl rfl]
      refine ⟨rfl, ?_⟩
      cases mid <;> simp

lemma erase_row {p n : NodeId} {before after : List NodeId} (hrow : rows p = before ++ n :: after) :
    (rows p).erase n = before ++ after := by
  rw [hrow, List.erase_append_right _ (h.apart hrow).1, List.erase_cons_head]

lemma erase_other {p q n : NodeId} (hp : d.parent n = some p) (hq : q ≠ p) :
    (rows q).erase n = rows q :=
  List.erase_of_not_mem (h.not_mem_of_ne (h.mem_iff.mpr hp) hq)

/-- The neighbours of a node stand in its row. -/
theorem neighbour_ne {p n c : NodeId} (hp : d.parent n = some p) (hc : c ∉ rows p) :
    d.previousSibling n ≠ some c ∧ d.nextSibling n ≠ some c := by
  obtain ⟨before, after, hrow⟩ := List.append_of_mem (h.mem_iff.mpr hp)
  rw [hrow] at hc
  rw [(h.siblings hrow).1, (h.siblings hrow).2]
  exact ⟨fun hlast => hc (by simp [List.mem_of_getLast? hlast]),
    fun hhead => hc (by simp [List.mem_of_head? hhead])⟩

/-- The first and the last child that are left when a node is taken out. -/
theorem ends_without {p n q : NodeId} (hp : d.parent n = some p) :
    (if p = q ∧ d.previousSibling n = none then d.nextSibling n else d.firstChild q) =
        ((rows q).erase n).head? ∧
      (if p = q ∧ d.nextSibling n = none then d.previousSibling n else d.lastChild q) =
        ((rows q).erase n).getLast? := by
  obtain ⟨before, after, hrow⟩ := List.append_of_mem (h.mem_iff.mpr hp)
  rw [h.firstChild_eq, h.lastChild_eq, (h.siblings hrow).1, (h.siblings hrow).2]
  by_cases hpq : p = q
  · subst hpq
    rw [h.erase_row hrow, hrow]
    constructor
    · cases before <;> simp
    · cases after <;> simp
  · rw [h.erase_other hp (Ne.symm hpq), if_neg (fun hboth => hpq hboth.1),
      if_neg (fun hboth => hpq hboth.1)]
    exact ⟨rfl, rfl⟩

/-- Detaching a node takes it out of its row. -/
theorem detach (n : NodeId) : (d.detach n).Rows fun q => (rows q).erase n := by
  cases hp : d.parent n with
  | none =>
    have hsame : (fun q => (rows q).erase n) = rows :=
      funext fun q => List.erase_of_not_mem (h.not_mem_of_orphan hp q)
    rw [detach_of_orphan hp, hsame]
    exact h
  | some p =>
    obtain ⟨before, after, hrow⟩ := List.append_of_mem (h.mem_iff.mpr hp)
    have hsize := d.size_detach n
    refine .of_inside (fun {q c} hc => ?_) (fun {q c} _ => ?_) (fun q => (h.nodup q).erase n)
      (fun {q} hq => ?_) (fun {q} hq => ?_) (fun {q c front back} hc => ?_) fun {m} hlt hm => ?_
    · have hc' := List.mem_of_mem_erase hc
      rw [hsize]
      exact ⟨h.parent_lt_size hc', h.lt_size hc'⟩
    · rw [(h.nodup q).mem_erase_iff, h.mem_iff, parent_detach]
      by_cases hcn : c = n <;> simp [hcn]
    · rw [firstChild_detach hp (hsize ▸ hq)]
      exact (h.ends_without hp).1
    · rw [lastChild_detach hp (hsize ▸ hq)]
      exact (h.ends_without hp).2
    · have hmem : c ∈ (rows q).erase n := hc ▸ by simp
      obtain ⟨hcn, hcq⟩ := (h.nodup q).mem_erase_iff.mp hmem
      have hlt := h.lt_size hcq
      rw [previousSibling_detach hp hlt, nextSibling_detach hp hlt, if_neg hcn, if_neg hcn]
      by_cases hq : q = p
      · subst hq
        rw [h.erase_row hrow] at hc
        rw [(h.siblings hrow).1, (h.siblings hrow).2]
        exact h.siblings_without hrow hc
      · obtain ⟨hback, hforth⟩ := h.neighbour_ne hp fun hcp => h.not_mem_of_ne hcp hq hcq
        rw [h.erase_other hp hq] at hc
        rw [if_neg hback, if_neg hforth]
        exact h.siblings hc
    · rw [hsize] at hlt
      rw [previousSibling_detach hp hlt, nextSibling_detach hp hlt]
      by_cases hmn : m = n
      · rw [if_pos hmn, if_pos hmn]
        exact ⟨rfl, rfl⟩
      · rw [parent_detach, if_neg hmn] at hm
        obtain ⟨hback, hforth⟩ := h.neighbour_ne hp (h.not_mem_of_orphan hm p)
        rw [if_neg hmn, if_neg hmn, if_neg hback, if_neg hforth]
        exact h.orphan hm

/-- The neighbours of a node in a row to which another one was added. -/
theorem siblings_with {p c m : NodeId} {before after : List NodeId} (hc : c ∉ rows p)
    (hm : rows p ++ [c] = before ++ m :: after) :
    (if c = m then d.lastChild p else d.previousSibling m) = before.getLast? ∧
      (if d.lastChild p = some m then some c else if c = m then none else d.nextSibling m) =
        after.head? := by
  cases after using List.reverseRecOn with
  | nil =>
    obtain ⟨rfl, hlast⟩ := List.append_inj' hm rfl
    obtain rfl := List.singleton_inj.mp hlast
    rw [if_pos rfl, if_pos rfl, if_neg (h.lastChild_ne hc), h.lastChild_eq]
    exact ⟨rfl, rfl⟩
  | append_singleton after x =>
    rw [← List.cons_append, ← List.append_assoc] at hm
    obtain ⟨hrow, hlast⟩ := List.append_inj' hm rfl
    obtain rfl := List.singleton_inj.mp hlast
    have hne : c ≠ m := by
      rintro rfl
      exact hc (hrow ▸ by simp)
    rw [if_neg hne, if_neg hne, (h.siblings hrow).1, (h.siblings hrow).2,
      if_congr (h.lastChild_eq_some_iff hrow) rfl rfl]
    refine ⟨rfl, ?_⟩
    cases after <;> simp

/-- Attaching a node without a parent puts it at the end of a row. -/
theorem attach {p c : NodeId} (horphan : d.parent c = none) (hc : c < d.size) (hp : p < d.size) :
    (d.attach p c).Rows fun q => if q = p then rows q ++ [c] else rows q := by
  have hnew := h.not_mem_of_orphan horphan
  have hsize := d.size_attach p c
  have hlt : ∀ {q m}, m ∈ (if q = p then rows q ++ [c] else rows q) → q < d.size ∧ m < d.size := by
    intro q m hm
    obtain hm | ⟨rfl, rfl⟩ := mem_row_with.mp hm
    · exact ⟨h.parent_lt_size hm, h.lt_size hm⟩
    · exact ⟨hp, hc⟩
  refine .of_inside (fun {q m} hm => hsize ▸ hlt hm) (fun {q m} hm => ?_) (fun q => ?_)
    (fun {q} hq => ?_) (fun {q} hq => ?_) (fun {q m before after} hm => ?_) fun {m} hm horphan => ?_
  · rw [mem_row_with, parent_attach (hsize ▸ hm), h.mem_iff]
    by_cases hmc : c = m
    · subst hmc
      simp [horphan, eq_comm]
    · simp [hmc, Ne.symm hmc]
  · split
    · refine List.nodup_append.mpr ⟨h.nodup q, List.pairwise_singleton _ _, fun x hx y hy => ?_⟩
      obtain rfl := List.mem_singleton.mp hy
      rintro rfl
      exact hnew q hx
    · exact h.nodup q
  · rw [firstChild_attach (hsize ▸ hq), h.firstChild_eq, h.lastChild_eq]
    by_cases hpq : p = q
    · subst hpq
      rw [if_pos rfl]
      cases rows p <;> simp
    · rw [if_neg (fun hboth => hpq hboth.1), if_neg (Ne.symm hpq)]
  · rw [lastChild_attach (hsize ▸ hq), h.lastChild_eq]
    by_cases hpq : p = q
    · rw [if_pos hpq, if_pos hpq.symm, List.getLast?_concat]
    · rw [if_neg hpq, if_neg (Ne.symm hpq)]
  · have hmem : m ∈ (if q = p then rows q ++ [c] else rows q) := by
      rw [hm]
      simp
    rw [previousSibling_attach (hlt hmem).2, nextSibling_attach (hlt hmem).2]
    by_cases hq : q = p
    · subst hq
      rw [if_pos rfl] at hm
      exact h.siblings_with (hnew q) hm
    · rw [if_neg hq] at hm hmem
      have hne : c ≠ m := fun heq => hnew q (heq ▸ hmem)
      have hlast := h.lastChild_ne fun hmp => h.not_mem_of_ne hmp hq hmem
      rw [if_neg hne, if_neg hne, if_neg hlast]
      exact h.siblings hm
  · rw [hsize] at hm
    rw [parent_attach hm] at horphan
    have hne : c ≠ m := fun heq => by simp [heq] at horphan
    rw [if_neg hne] at horphan
    rw [previousSibling_attach hm, nextSibling_attach hm, if_neg hne, if_neg hne,
      if_neg (h.lastChild_ne (h.not_mem_of_orphan horphan p))]
    exact h.orphan horphan

/-- Appending a node takes it out of its row, whichever that is, and then puts it at the end of
another. -/
theorem appendChild {p c : NodeId} (hne : p ≠ c) (hp : p < d.size) (hc : c < d.size) :
    (d.appendChild p c).Rows fun q =>
      if q = p then (rows q).erase c ++ [c] else (rows q).erase c := by
  have horphan : (d.detach c).parent c = none := by
    rw [parent_detach, if_pos rfl]
  rw [appendChild_eq_attach hne hp hc]
  exact (h.detach c).attach horphan (by rwa [size_detach]) (by rwa [size_detach])

end Rows

/-- Whether all links of two documents are the same. -/
structure SameLinks (d d' : Document) : Prop where
  parent : d'.parent = d.parent
  firstChild : d'.firstChild = d.firstChild
  lastChild : d'.lastChild = d.lastChild
  previousSibling : d'.previousSibling = d.previousSibling
  nextSibling : d'.nextSibling = d.nextSibling

namespace SameLinks

variable {d d' : Document}

lemma refl (d : Document) : SameLinks d d := ⟨rfl, rfl, rfl, rfl, rfl⟩

lemma trans {d'' : Document} (h : SameLinks d d') (h' : SameLinks d' d'') : SameLinks d d'' :=
  ⟨h'.parent.trans h.parent, h'.firstChild.trans h.firstChild, h'.lastChild.trans h.lastChild,
    h'.previousSibling.trans h.previousSibling, h'.nextSibling.trans h.nextSibling⟩

end SameLinks

lemma Rows.of_sameLinks {d d' : Document} {rows : NodeId → List NodeId} (h : d.Rows rows)
    (hsame : SameLinks d d') : d'.Rows rows := by
  obtain ⟨hparent, hfirst, hlast, hprevious, hnext⟩ := hsame
  refine ⟨?_, h.nodup, ?_, ?_, ?_, ?_⟩
  · rw [hparent]
    exact h.mem_iff
  · rw [hfirst]
    exact h.firstChild_eq
  · rw [hlast]
    exact h.lastChild_eq
  · rw [hprevious, hnext]
    exact h.siblings
  · rw [hparent, hprevious, hnext]
    exact h.orphan

/-- A new node has no links, and a node past the end of the arena had none. -/
theorem sameLinks_create (d : Document) (data : NodeData) : SameLinks d (d.create data).1 := by
  have hlink : ∀ link : Node → Option NodeId, link (.detached data) = none → ∀ m : NodeId,
      ((d.create data).1.nodes[m]?).bind link = (d.nodes[m]?).bind link := by
    intro link hnone m
    rw [create, Array.getElem?_push]
    split
    · rename_i hm
      rw [bind_of_ge (Nat.le_of_eq hm.symm)]
      exact hnone
    · rfl
  exact ⟨funext (hlink _ rfl), funext (hlink _ rfl), funext (hlink _ rfl), funext (hlink _ rfl),
    funext (hlink _ rfl)⟩

lemma sameLinks_modifyElement (d : Document) (n : NodeId) (f : ElementData → ElementData) :
    SameLinks d (d.modifyElement n f) := by
  have hlink : ∀ link : Node → Option NodeId, (∀ node data, link { node with data } = link node) →
      ∀ m : NodeId, ((d.modifyElement n f).nodes[m]?).bind link = (d.nodes[m]?).bind link := by
    intro link hdata m
    rw [modifyElement, bind_modifyNode]
    split
    · refine congrArg (Option.bind _) (funext fun node => ?_)
      split
      · exact hdata node _
      · rfl
    · rfl
  exact ⟨funext (hlink _ fun _ _ => rfl), funext (hlink _ fun _ _ => rfl),
    funext (hlink _ fun _ _ => rfl), funext (hlink _ fun _ _ => rfl),
    funext (hlink _ fun _ _ => rfl)⟩

lemma sameLinks_setAttributes (d : Document) (n : NodeId) (attributes : List (String × String)) :
    SameLinks d (attributes.foldl (fun d entry => d.setAttribute n entry.1 entry.2) d) := by
  induction attributes generalizing d with
  | nil => exact .refl d
  | cons entry rest ih => exact (sameLinks_modifyElement d n _).trans (ih _)

/-- Whatever was done to a document, its links write down its children. -/
theorem Reached.rows {d : Document} (h : d.Reached) : d.Rows d.children := by
  have hkeep : ∀ {d : Document} {rows}, d.Rows rows → d.Rows d.children :=
    fun hrows => hrows.rows_eq ▸ hrows
  induction h with
  | empty xml => exact (isForest_iff.mp (isForest_empty xml)).1
  | createElement _ name ih => exact hkeep (ih.of_sameLinks (sameLinks_create _ _))
  | createText _ content ih => exact hkeep (ih.of_sameLinks (sameLinks_create _ _))
  | createComment _ content ih => exact hkeep (ih.of_sameLinks (sameLinks_create _ _))
  | appendChild _ p c ih =>
    exact appendChild_cases (P := fun d => d.Rows d.children) ih fun hne hp hc =>
      hkeep (ih.appendChild hne hp hc)
  | detach _ n ih => exact hkeep (ih.detach n)
  | setAttribute _ n name value ih => exact hkeep (ih.of_sameLinks (sameLinks_modifyElement _ _ _))
  | removeAttribute _ n name ih => exact hkeep (ih.of_sameLinks (sameLinks_modifyElement _ _ _))

namespace Rows

variable {d : Document} (h : d.Rows d.children)
include h

/-- Appending moves the node that is appended; the children of a third node stay. -/
theorem children_appendChild {p c : NodeId} (hne : p ≠ c) (hp : p < d.size) (hc : c < d.size)
    (q : NodeId) :
    (d.appendChild p c).children q =
      if q = p then (d.children q).erase c ++ [c]
      else if d.parent c = some q then (d.children q).erase c else d.children q := by
  rw [(h.appendChild hne hp hc).children_eq]
  split
  · rfl
  · split
    · rfl
    · rename_i hq
      exact List.erase_of_not_mem (mt h.mem_iff.mp hq)

lemma children_detach (c q : NodeId) :
    (d.detach c).children q =
      if d.parent c = some q then (d.children q).erase c else d.children q := by
  rw [(h.detach c).children_eq]
  split
  · rfl
  · rename_i hq
    exact List.erase_of_not_mem (mt h.mem_iff.mp hq)

end Rows

lemma chain_nextSibling (d : Document) (bound : Nat) (start : Option NodeId) :
    chain d.nextSibling bound start = d.siblingsFrom bound start := by
  induction bound generalizing start with
  | zero => cases start <;> rfl
  | succ bound ih =>
    cases start with
    | none => rfl
    | some n => exact congrArg (n :: ·) (ih (d.nextSibling n))

/-- Whatever was done to a document, the ways along its sibling links end, the way forward from a
first child meets the nodes with that parent, each of them once, and the way back from a last child
meets them in reverse. Appending takes a node out of the list that it is in and puts it at the end
of another, and detaching only takes it out; all other lists and all data stay. -/
theorem Reached.sibling_links {d : Document} (h : d.Reached) :
    (∀ p,
      Ends d.nextSibling d.size (d.firstChild p) ∧
      Ends d.previousSibling d.size (d.lastChild p) ∧
      chain d.nextSibling d.size (d.firstChild p) = d.children p ∧
      chain d.previousSibling d.size (d.lastChild p) = (d.children p).reverse ∧
      (d.children p).Nodup ∧
      ∀ c, c ∈ d.children p ↔ d.parent c = some p) ∧
    (∀ p c, p ≠ c → p < d.size → c < d.size →
      (∀ q, (d.appendChild p c).children q =
        if q = p then (d.children q).erase c ++ [c]
        else if d.parent c = some q then (d.children q).erase c else d.children q) ∧
      ∀ m, (d.appendChild p c).data m = d.data m) ∧
    ∀ c,
      (∀ q, (d.detach c).children q =
        if d.parent c = some q then (d.children q).erase c else d.children q) ∧
      ∀ m, (d.detach c).data m = d.data m := by
  have hrows := h.rows
  refine ⟨fun p => ?_, fun p c hne hp hc => ?_, fun c => ?_⟩
  · have hall : d.children p = [] ++ d.children p := rfl
    have hlength := hrows.length_le p
    obtain ⟨hback, hreverse⟩ :=
      hrows.chain_previousSibling (List.append_nil (d.children p)).symm hlength
    rw [← hrows.lastChild_eq] at hback hreverse
    have hforward := hrows.ends_nextSibling hall hlength
    rw [← hrows.firstChild_eq] at hforward
    exact ⟨hforward, hback, d.chain_nextSibling _ _, hreverse, hrows.nodup p, fun c => hrows.mem_iff⟩
  · exact ⟨hrows.children_appendChild hne hp hc, fun m => d.data_appendChild m p c⟩
  · exact ⟨hrows.children_detach c, fun m => d.data_detach c m⟩

/-- Of the two items of the list, the first one is appended to the list once more. -/
theorem sibling_links_sample :
    sample.Reached ∧ (1 ≠ 2 ∧ 1 < sample.size ∧ 2 < sample.size) ∧
      sample.children 1 = [2, 3] ∧ (sample.appendChild 1 2).children 1 = [3, 2] ∧
      (sample.appendChild 1 2).children root = sample.children root ∧
      (sample.detach 2).children 1 = [3] := by
  obtain ⟨-, happend, hdetach⟩ := Reached.sibling_links reached_sample
  have hchildren : sample.children 1 = [2, 3] := by decide +kernel
  have hparent : sample.parent 2 = some 1 := by decide +kernel
  obtain ⟨hlists, -⟩ := happend 1 2 (by decide) (by decide +kernel) (by decide +kernel)
  refine ⟨reached_sample, by decide +kernel, hchildren, ?_, ?_, ?_⟩
  · rw [hlists, if_pos rfl, hchildren]
    rfl
  · rw [hlists, if_neg (by decide), hparent, if_neg (by decide)]
  · rw [(hdetach 2).1, if_pos hparent, hchildren]
    rfl

end Document

end TreeQuery
