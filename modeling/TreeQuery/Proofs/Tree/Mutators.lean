import Mathlib.Tactic.Lemma
import TreeQuery.Tree.Fixture

/-!
# Documents that are built step by step

What holds of an element without attributes, and stays so when an attribute is set or removed, holds
of every element of a document that was made from an empty one by its mutators. Links may come out
as they will; the data of a node change with its attributes only.
-/

namespace TreeQuery

namespace Document

/-- The attributes of a new element of a fixture in the order in which they are set. -/
def described (id className : Option String) (attributes : List (String × String)) :
    List (String × String) :=
  (id.map (("id", ·))).toList ++ (className.map (("class", ·))).toList ++ attributes

/-- Appends the text of an element, if it has one. -/
def appendOwnText (d : Document) (n : NodeId) : Option String → Document
  | some content => (d.appendText n content).1
  | none => d

lemma build_element (d : Document) (parent : NodeId) (tag : String) (id className : Option String)
    (attributes : List (String × String)) (text : Option String) (children : List Fixture) :
    let created := d.appendElement parent tag (described id className attributes)
    let built := (created.1.appendOwnText created.2 text).buildAll created.2 children
    d.build parent (.node (some tag) id className attributes text children) =
      (built.1, built.2.map fun _ => created.2) := by
  rw [build]
  cases text <;> dsimp only <;> split <;> rename_i heq <;>
    simp only [appendElement, appendOwnText, described, createDescribed] at heq ⊢ <;>
    rw [heq] <;> rfl

/-- Whether a property of documents stays when an element or a text is appended. -/
structure KeptByAppending (P : Document → Prop) : Prop where
  element : ∀ {d}, P d → ∀ parent name attributes, P (d.appendElement parent name attributes).1
  text : ∀ {d}, P d → ∀ parent content, P (d.appendText parent content).1

namespace KeptByAppending

mutual

/-- Building a fixture, up to a fault in it, is appending elements and texts. -/
theorem build {P : Document → Prop} (hP : KeptByAppending P) : ∀ (fixture : Fixture) {d : Document},
    P d → ∀ parent, P (d.build parent fixture).1
  | .node none _ _ _ (some content) _, _, h, parent => hP.text h parent content
  | .node none _ _ _ none _, _, h, _ => h
  | .node (some tag) id className attributes text children, d, h, parent => by
    rw [build_element]
    refine buildAll hP children ?_ _
    have hcreated := hP.element h parent tag (described id className attributes)
    cases text with
    | none => exact hcreated
    | some content => exact hP.text hcreated _ content

theorem buildAll {P : Document → Prop} (hP : KeptByAppending P) : ∀ (fixtures : List Fixture)
    {d : Document}, P d → ∀ parent, P (d.buildAll parent fixtures).1
  | [], _, h, _ => h
  | fixture :: rest, d, h, parent => by
    have hfirst := build hP fixture h parent
    rw [Document.buildAll]
    split <;> rename_i heq <;> rw [heq] at hfirst
    · exact buildAll hP rest hfirst parent
    · exact hfirst

end

/-- So it holds of a document of fixtures if it holds of the empty one. -/
theorem ofFixtures {P : Document → Prop} (hP : KeptByAppending P) {d : Document} {xml : Bool}
    {fixtures : List Fixture} (hempty : P (.empty xml))
    (h : Document.ofFixtures xml fixtures = .ok d) : P d := by
  have hbuilt := hP.buildAll fixtures hempty root
  unfold Document.ofFixtures at h
  split at h
  · rename_i heq
    rw [heq] at hbuilt
    exact Except.ok.inj h ▸ hbuilt
  · exact nomatch h

end KeptByAppending

/-- Whether a document was made from an empty one. Whatever else changes documents does it in these
steps. -/
inductive Reached : Document → Prop where
  | empty (xml : Bool) : Reached (.empty xml)
  | createElement {d : Document} : d.Reached → ∀ name, Reached (d.createElement name).1
  | createText {d : Document} : d.Reached → ∀ content, Reached (d.createText content).1
  | createComment {d : Document} : d.Reached → ∀ content, Reached (d.createComment content).1
  | appendChild {d : Document} : d.Reached → ∀ parent child, Reached (d.appendChild parent child)
  | detach {d : Document} : d.Reached → ∀ n, Reached (d.detach n)
  | setAttribute {d : Document} : d.Reached → ∀ n name value, Reached (d.setAttribute n name value)
  | removeAttribute {d : Document} : d.Reached → ∀ n name, Reached (d.removeAttribute n name)

namespace Reached

variable {d : Document}

lemma setAttributes (h : d.Reached) (n : NodeId) (attributes : List (String × String)) :
    (attributes.foldl (fun d entry => d.setAttribute n entry.1 entry.2) d).Reached := by
  induction attributes generalizing d with
  | nil => exact h
  | cons entry rest ih => exact ih (h.setAttribute n entry.1 entry.2)

lemma appendElement (h : d.Reached) (parent : NodeId) (name : String)
    (attributes : List (String × String)) : (d.appendElement parent name attributes).1.Reached :=
  ((h.createElement name).setAttributes _ attributes).appendChild parent _

lemma appendText (h : d.Reached) (parent : NodeId) (content : String) :
    (d.appendText parent content).1.Reached :=
  (h.createText content).appendChild parent _

lemma keptByAppending : KeptByAppending Reached :=
  ⟨fun h => h.appendElement, fun h => h.appendText⟩

/-- What a fixture has built, up to a fault in it, was built step by step. -/
theorem build (h : d.Reached) (parent : NodeId) (fixture : Fixture) :
    (d.build parent fixture).1.Reached :=
  keptByAppending.build fixture h parent

lemma ofFixtures {xml : Bool} {fixtures : List Fixture}
    (h : Document.ofFixtures xml fixtures = .ok d) : d.Reached :=
  keptByAppending.ofFixtures (.empty xml) h

end Reached

section Data

variable (d : Document) (n m : NodeId)

lemma data_modifyNode {f : Node → Node} (hf : ∀ node, (f node).data = node.data) :
    (d.modifyNode n f).data m = d.data m := by
  unfold data modifyNode
  rw [Array.getElem?_modify]
  split
  · rw [Option.map_map]
    exact congrArg (Option.map · _) (funext hf)
  · rfl

lemma data_detach : (d.detach n).data m = d.data m := by
  unfold detach
  cases d.parent n with
  | none => rfl
  | some p =>
    cases d.nextSibling n <;> cases d.previousSibling n <;> simp [data_modifyNode]

lemma data_appendChild (parent child : NodeId) :
    (d.appendChild parent child).data m = d.data m := by
  unfold appendChild
  split
  · rfl
  · cases hlast : (d.detach child).lastChild parent <;> simp [hlast, data_modifyNode, data_detach]

lemma xml_detach : (d.detach n).xml = d.xml := by
  unfold detach
  cases d.parent n with
  | none => rfl
  | some p => cases d.nextSibling n <;> cases d.previousSibling n <;> rfl

lemma xml_appendChild (parent child : NodeId) : (d.appendChild parent child).xml = d.xml := by
  unfold appendChild
  split
  · rfl
  · cases hlast : (d.detach child).lastChild parent <;> simp [hlast, modifyNode, xml_detach]

lemma data_create (data : NodeData) :
    (d.create data).1.data m = if m = d.size then some data else d.data m := by
  unfold Document.data create size
  rw [Array.getElem?_push]
  split <;> rfl

lemma element_congr {d d' : Document} {n : NodeId} (h : d'.data n = d.data n) :
    d'.element n = d.element n := by
  unfold element
  rw [h]

lemma element_modifyElement (f : ElementData → ElementData) :
    (d.modifyElement n f).element m = if n = m then (d.element m).map f else d.element m := by
  unfold element data modifyElement modifyNode
  rw [Array.getElem?_modify]
  by_cases hn : n = m
  · rw [if_pos hn, if_pos hn]
    cases d.nodes[m]? with
    | none => rfl
    | some node =>
      obtain ⟨_, _, _, _, _, nodeData⟩ := node
      cases nodeData <;> rfl
  · rw [if_neg hn, if_neg hn]

end Data

/-- A new element is the only one with new data. -/
theorem element_create {d : Document} {data : NodeData} {n : NodeId} {e : ElementData}
    (he : (d.create data).1.element n = some e) : data = .element e ∨ d.element n = some e := by
  unfold element at he ⊢
  rw [data_create] at he
  by_cases hn : n = d.size
  · rw [if_pos hn] at he
    cases data with
    | element e' => exact .inl (congrArg _ (Option.some.inj he))
    | document => exact nomatch he
    | text content => exact nomatch he
    | comment content => exact nomatch he
  · rw [if_neg hn] at he
    exact .inr he

lemma element_modified {d : Document} {k n : NodeId} {f : ElementData → ElementData}
    {e : ElementData} (he : (d.modifyElement k f).element n = some e) :
    (∃ old, d.element n = some old ∧ e = f old) ∨ d.element n = some e := by
  rw [element_modifyElement] at he
  split at he
  · obtain ⟨old, hold, rfl⟩ := Option.map_eq_some_iff.mp he
    exact .inl ⟨old, hold, rfl⟩
  · exact .inr he

/-- What setting and removing attributes keeps holds of every element. -/
theorem Reached.forall_element {P : Bool → ElementData → Prop}
    (hnew : ∀ xml name, P xml ⟨name, []⟩)
    (hset : ∀ {xml e}, P xml e → ∀ name value, P xml (e.setAttribute xml name value))
    (hremove : ∀ {xml e}, P xml e → ∀ name, P xml (e.removeAttribute xml name))
    {d : Document} (h : d.Reached) : ∀ n e, d.element n = some e → P d.xml e := by
  induction h with
  | empty xml =>
    intro n e he
    cases n with
    | zero => exact nomatch he
    | succ n => simp [element, data, Document.empty] at he
  | createElement _ name ih =>
    intro n e he
    obtain hdata | he := element_create he
    · exact NodeData.element.inj hdata ▸ hnew _ name
    · exact ih n e he
  | createText _ content ih | createComment _ content ih =>
    intro n e he
    obtain hdata | he := element_create he
    · exact nomatch hdata
    · exact ih n e he
  | @appendChild d _ parent child ih =>
    intro n e he
    rw [xml_appendChild]
    exact ih n e (element_congr (d.data_appendChild n parent child) ▸ he)
  | @detach d _ k ih =>
    intro n e he
    rw [xml_detach]
    exact ih n e (element_congr (d.data_detach k n) ▸ he)
  | @setAttribute d _ k name value ih =>
    intro n e he
    obtain ⟨old, hold, rfl⟩ | he := element_modified he
    · exact hset (ih n old hold) name value
    · exact ih n e he
  | @removeAttribute d _ k name ih =>
    intro n e he
    obtain ⟨old, hold, rfl⟩ | he := element_modified he
    · exact hremove (ih n old hold) name
    · exact ih n e he

end Document

end TreeQuery
