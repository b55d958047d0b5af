import TreeQuery.Proofs.Tree.Forest

/-!
# Links after a change

What each of the five links of a node is after a node was detached, or attached to another one.
Appending a node is to detach it and to attach it.
-/

namespace TreeQuery

namespace Document

section Links

lemma size_modifyNode (d : Document) (n : NodeId) (f : Node → Node) :
    (d.modifyNode n f).size = d.size :=
  Array.size_modify

/-- A link read behind a change of one node. -/
theorem bind_modifyNode (d : Document) (n m : NodeId) (f : Node → Node)
    (link : Node → Option NodeId) :
    ((d.modifyNode n f).nodes[m]?).bind link =
      if n = m then (d.nodes[m]?).bind fun node => link (f node) else (d.nodes[m]?).bind link := by
  rw [modifyNode, Array.getElem?_modify]
  split
  · cases d.nodes[m]? <;> rfl
  · rfl

lemma bind_const (d : Document) {m : NodeId} (hm : m < d.size) (value : Option NodeId) :
    ((d.nodes[m]?).bind fun _ => value) = value := by
  rw [Array.getElem?_eq_getElem hm, Option.bind_some]

lemma bind_of_ge {d : Document} {m : NodeId} (hm : d.size ≤ m) (link : Node → Option NodeId) :
    (d.nodes[m]?).bind link = none := by
  rw [Array.getElem?_eq_none hm, Option.bind_none]

lemma detach_of_orphan {d : Document} {n : NodeId} (hp : d.parent n = none) :
    d.detach n = d := by
  unfold detach
  rw [hp]

lemma size_detach (d : Document) (n : NodeId) : (d.detach n).size = d.size := by
  unfold detach
  cases d.parent n with
  | none => rfl
  | some p =>
    dsimp only
    cases d.previousSibling n <;> cases d.nextSibling n <;> simp only [size_modifyNode]

lemma parent_detach (d : Document) (n m : NodeId) :
    (d.detach n).parent m = if m = n then none else d.parent m := by
  cases hp : d.parent n with
  | none =>
    rw [detach_of_orphan hp]
    split
    · rename_i heq
      exact heq ▸ hp
    · rfl
  | some p =>
    unfold detach
    rw [hp]
    dsimp only
    cases d.previousSibling n <;> cases d.nextSibling n <;>
      simp only [parent, bind_modifyNode, ite_self, eq_comm (a := n), Option.bind_fun_none]

variable {d : Document} {n p m : NodeId} (hp : d.parent n = some p) (hm : m < d.size)
include hp hm

lemma previousSibling_detach :
    (d.detach n).previousSibling m =
      if m = n then none
      else if d.nextSibling n = some m then d.previousSibling n else d.previousSibling m := by
  unfold detach
  rw [hp]
  dsimp only
  cases d.previousSibling n <;> cases d.nextSibling n <;>
    simp only [previousSibling, bind_modifyNode, ite_self, bind_const d hm, eq_comm (a := n),
      Option.some.injEq, if_false, reduceCtorEq]

lemma nextSibling_detach :
    (d.detach n).nextSibling m =
      if m = n then none
      else if d.previousSibling n = some m then d.nextSibling n else d.nextSibling m := by
  unfold detach
  rw [hp]
  dsimp only
  cases d.previousSibling n <;> cases d.nextSibling n <;>
    simp only [nextSibling, bind_modifyNode, ite_self, bind_const d hm, eq_comm (a := n),
      Option.some.injEq, if_false, reduceCtorEq]

lemma firstChild_detach :
    (d.detach n).firstChild m =
      if p = m ∧ d.previousSibling n = none then d.nextSibling n else d.firstChild m := by
  unfold detach
  rw [hp]
  dsimp only
  cases d.previousSibling n <;> cases d.nextSibling n <;>
    simp only [firstChild, bind_modifyNode, ite_self, bind_const d hm, if_false, reduceCtorEq,
      and_true, and_false]

lemma lastChild_detach :
    (d.detach n).lastChild m =
      if p = m ∧ d.nextSibling n = none then d.previousSibling n else d.lastChild m := by
  unfold detach
  rw [hp]
  dsimp only
  cases d.previousSibling n <;> cases d.nextSibling n <;>
    simp only [lastChild, bind_modifyNode, ite_self, bind_const d hm, if_false, reduceCtorEq,
      and_true, and_false]

end Links

/-- Makes a node without a parent the last child of another. -/
def attach (d : Document) (parent child : NodeId) : Document :=
  let last := d.lastChild parent
  let d := d.modifyNode child fun node =>
    { node with parent := some parent, previousSibling := last, nextSibling := none }
  let d := match last with
    | some s => d.modifyNode s fun node => { node with nextSibling := some child }
    | none => d.modifyNode parent fun node => { node with firstChild := some child }
  d.modifyNode parent fun node => { node with lastChild := some child }

lemma appendChild_eq_attach {d : Document} {p c : NodeId} (hne : p ≠ c) (hp : p < d.size)
    (hc : c < d.size) : d.appendChild p c = (d.detach c).attach p c := by
  have hmoves : ¬ (p = c ∨ d.size ≤ c ∨ d.size ≤ p) :=
    not_or.mpr ⟨hne, not_or.mpr ⟨Nat.not_le.mpr hc, Nat.not_le.mpr hp⟩⟩
  unfold appendChild
  rw [if_neg hmoves]
  rfl

section Attach

variable {d : Document} {p c m : NodeId}

lemma size_attach (d : Document) (p c : NodeId) : (d.attach p c).size = d.size := by
  unfold attach
  dsimp only
  cases d.lastChild p <;> simp only [size_modifyNode]

lemma parent_attach (hm : m < d.size) :
    (d.attach p c).parent m = if c = m then some p else d.parent m := by
  unfold attach
  dsimp only
  cases d.lastChild p <;> simp only [parent, bind_modifyNode, ite_self, bind_const d hm]

lemma previousSibling_attach (hm : m < d.size) :
    (d.attach p c).previousSibling m = if c = m then d.lastChild p else d.previousSibling m := by
  unfold attach
  dsimp only
  cases d.lastChild p <;> simp only [previousSibling, bind_modifyNode, ite_self, bind_const d hm]

lemma nextSibling_attach (hm : m < d.size) :
    (d.attach p c).nextSibling m =
      if d.lastChild p = some m then some c else if c = m then none else d.nextSibling m := by
  unfold attach
  dsimp only
  cases d.lastChild p <;>
    simp only [nextSibling, bind_modifyNode, ite_self, bind_const d hm, Option.some.injEq, if_false,
      reduceCtorEq]

lemma firstChild_attach (hm : m < d.size) :
    (d.attach p c).firstChild m =
      if p = m ∧ d.lastChild p = none then some c else d.firstChild m := by
  unfold attach
  dsimp only
  cases d.lastChild p <;>
    simp only [firstChild, bind_modifyNode, ite_self, bind_const d hm, if_false, reduceCtorEq,
      and_true, and_false]

lemma lastChild_attach (hm : m < d.size) :
    (d.attach p c).lastChild m = if p = m then some c else d.lastChild m := by
  unfold attach
  dsimp only
  cases d.lastChild p <;> simp only [lastChild, bind_modifyNode, ite_self, bind_const d hm]

/-- An append changes nothing, or it moves a node of the arena below another one. -/
theorem appendChild_cases {P : Document → Prop} (hsame : P d)
    (hmoves : p ≠ c → p < d.size → c < d.size → P (d.appendChild p c)) :
    P (d.appendChild p c) := by
  by_cases hstays : p = c ∨ d.size ≤ c ∨ d.size ≤ p
  · rwa [appendChild, if_pos hstays]
  · simp only [not_or, Nat.not_le] at hstays
    exact hmoves hstays.1 hstays.2.2 hstays.2.1

lemma size_appendChild (d : Document) (p c : NodeId) : (d.appendChild p c).size = d.size := by
  refine appendChild_cases (P := fun d' => d'.size = d.size) rfl fun hne hp hc => ?_
  rw [appendChild_eq_attach hne hp hc, size_attach, size_detach]

lemma parent_appendChild (hne : p ≠ c) (hp : p < d.size) (hc : c < d.size) (m : NodeId) :
    (d.appendChild p c).parent m = if m = c then some p else d.parent m := by
  rw [appendChild_eq_attach hne hp hc]
  by_cases hm : m < d.size
  · rw [parent_attach (by rwa [size_detach]), parent_detach]
    simp only [eq_comm (a := c)]
    split <;> rfl
  · have hout : ((d.detach c).attach p c).size ≤ m := by
      rw [size_attach, size_detach]
      exact Nat.not_lt.mp hm
    rw [if_neg (fun heq : m = c => hm (heq ▸ hc))]
    exact (bind_of_ge hout _).trans (bind_of_ge (Nat.not_lt.mp hm) _).symm

end Attach

end Document

end TreeQuery
