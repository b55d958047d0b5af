import TreeQuery.Proofs.Tree.Attributes
import TreeQuery.Proofs.Tree.Rows

/-!
# Building a fixture

A fixture without faults describes a tree. Building it plants the nodes of that tree one after
another in preorder, each as the last child of its parent, so the new nodes are numbered in preorder
and show the tree; of the nodes that were there before, only the parent and its last child notice.
-/

namespace TreeQuery

/-- What a described tree says of one node. -/
inductive OutlineLabel where
  | text (content : String)
  | element (tag : String) (written : List (String × String))

/-- A tree as a fixture describes it. -/
inductive Outline where
  | node (label : OutlineLabel) (below : List Outline)

namespace Outline

mutual

def count : Outline → Nat
  | .node _ below => countAll below + 1

def countAll : List Outline → Nat
  | [] => 0
  | tree :: rest => tree.count + countAll rest

end

/-- The roots of trees that are numbered in preorder from `n` on. -/
def roots : NodeId → List Outline → List NodeId
  | _, [] => []
  | n, tree :: rest => n :: roots (n + tree.count) rest

end Outline

namespace Fixture

/-- The text of an element is its first child. -/
def ownText (text : Option String) : List Outline :=
  (text.map fun content => Outline.node (.text content) []).toList

mutual

/-- The tree that a fixture describes, if it has no fault. -/
def outline? : Fixture → Option Outline
  | .node none _ _ _ text _ => text.map fun content => .node (.text content) []
  | .node (some tag) id className attributes text children =>
    (outlines? children).map fun below =>
      .node (.element tag (Document.described id className attributes)) (ownText text ++ below)

def outlines? : List Fixture → Option (List Outline)
  | [] => some []
  | fixture :: rest => fixture.outline?.bind fun tree => (outlines? rest).map (tree :: ·)

end

mutual

/-- The tags and texts that building looks at. What is below a fixture without a tag does not
count. -/
def met : Fixture → List (Option String × Option String)
  | .node none _ _ _ text _ => [(none, text)]
  | .node (some tag) _ _ _ text children => (some tag, text) :: metAll children

def metAll : List Fixture → List (Option String × Option String)
  | [] => []
  | fixture :: rest => fixture.met ++ metAll rest

end

mutual

/-- A fixture describes a tree exactly if every fixture that is met has a tag or a text. -/
theorem outline?_isSome_iff : ∀ fixture : Fixture,
    fixture.outline?.isSome ↔ ∀ entry ∈ fixture.met, entry.1.isSome ∨ entry.2.isSome
  | .node none _ _ _ text _ => by simp [outline?, met]
  | .node (some tag) _ _ _ text children => by
    have hchildren := outlines?_isSome_iff children
    simp [outline?, met, hchildren]

theorem outlines?_isSome_iff : ∀ fixtures : List Fixture,
    (outlines? fixtures).isSome ↔ ∀ entry ∈ metAll fixtures, entry.1.isSome ∨ entry.2.isSome
  | [] => by simp [outlines?, metAll]
  | fixture :: rest => by
    have hfirst := outline?_isSome_iff fixture
    have hrest := outlines?_isSome_iff rest
    simp only [metAll, List.forall_mem_append, ← hfirst, ← hrest, outlines?]
    cases fixture.outline? <;> simp

end

end Fixture

namespace OutlineLabel

def data (xml : Bool) : OutlineLabel → NodeData
  | .text content => .text content
  | .element tag written => .element (ElementData.setAll xml ⟨tag, []⟩ written)

/-- Whether a node is as a label says: a text, or an element with a tag under whose attribute names
the values that were written last are found. -/
def Holds (d : Document) (n : NodeId) : OutlineLabel → Prop
  | .text content => d.text n = some content
  | .element tag written =>
    d.localName n = some tag ∧ ∀ name, d.attribute? n name = lastWritten d.xml written name

lemma holds_of_data {d : Document} {n : NodeId} {label : OutlineLabel}
    (h : d.data n = some (label.data d.xml)) : label.Holds d n := by
  cases label with
  | text content =>
    show d.text n = some content
    rw [Document.text, h]
    rfl
  | element tag written =>
    have helement : d.element n = some (ElementData.setAll d.xml ⟨tag, []⟩ written) := by
      rw [Document.element, h]
      rfl
    refine ⟨?_, fun name => ?_⟩
    · rw [Document.localName, helement, Option.map_some, ElementData.name_setAll]
    · rw [Document.attribute?, helement, Option.bind_some, ElementData.attribute?_setAll]

lemma Holds.congr {d d' : Document} {n : NodeId} {label : OutlineLabel} (h : label.Holds d n)
    (hxml : d'.xml = d.xml) (hdata : d'.data n = d.data n) : label.Holds d' n := by
  cases label with
  | text content =>
    show d'.text n = some content
    rw [Document.text, hdata]
    exact h
  | element tag written =>
    have helement : d'.element n = d.element n := Document.element_congr hdata
    refine ⟨?_, fun name => ?_⟩
    · rw [Document.localName, helement]
      exact h.1
    · rw [Document.attribute?, helement, hxml]
      exact h.2 name

end OutlineLabel

namespace Document

mutual

/-- Whether a document shows a tree below `n`, its nodes numbered in preorder from `n` on. -/
def Shows (d : Document) (n : NodeId) : Outline → Prop
  | .node label below =>
    label.Holds d n ∧ d.children n = Outline.roots (n + 1) below ∧ d.ShowsAll (n + 1) below

def ShowsAll (d : Document) (n : NodeId) : List Outline → Prop
  | [] => True
  | tree :: rest => d.Shows n tree ∧ d.ShowsAll (n + tree.count) rest

end

/-- Adds a node as the last child of another. -/
def plant (d : Document) (parent : NodeId) (data : NodeData) : Document :=
  (d.create data).1.appendChild parent d.size

mutual

/-- Plants the nodes of a tree in preorder. -/
def sow (d : Document) (parent : NodeId) : Outline → Document
  | .node label below => sowAll (d.plant parent (label.data d.xml)) d.size below

def sowAll (d : Document) (parent : NodeId) : List Outline → Document
  | [] => d
  | tree :: rest => sowAll (d.sow parent tree) parent rest

end

section Sowing

variable (d : Document)

lemma setAttribute_create (e : ElementData) (name value : String) :
    (d.create (.element e)).1.setAttribute d.size name value =
      (d.create (.element (e.setAttribute d.xml name value))).1 := by
  refine congrArg (Document.mk · d.xml) (Array.ext_getElem? fun m => ?_)
  rw [Array.getElem?_modify, create, size, Array.getElem?_push, Array.getElem?_push]
  by_cases hm : m = d.nodes.size
  · rw [if_pos hm.symm, if_pos hm, if_pos hm]
    rfl
  · rw [if_neg (Ne.symm hm), if_neg hm, if_neg hm]

lemma setAttributes_create (e : ElementData) (written : List (String × String)) :
    written.foldl (fun d' entry => d'.setAttribute d.size entry.1 entry.2)
        (d.create (.element e)).1 =
      (d.create (.element (e.setAll d.xml written))).1 := by
  induction written generalizing e with
  | nil => rfl
  | cons entry rest ih =>
    rw [List.foldl_cons, setAttribute_create]
    exact ih (e.setAttribute d.xml entry.1 entry.2)

lemma appendElement_eq_plant (parent : NodeId) (tag : String) (written : List (String × String)) :
    d.appendElement parent tag written =
      (d.plant parent (OutlineLabel.data d.xml (.element tag written)), d.size) :=
  congrArg (fun d' : Document => (d'.appendChild parent d.size, d.size))
    (d.setAttributes_create ⟨tag, []⟩ written)

lemma appendText_eq_plant (parent : NodeId) (content : String) :
    d.appendText parent content =
      (d.plant parent (OutlineLabel.data d.xml (.text content)), d.size) := rfl

lemma sowAll_append (parent : NodeId) (front back : List Outline) :
    d.sowAll parent (front ++ back) = (d.sowAll parent front).sowAll parent back := by
  induction front generalizing d with
  | nil => rfl
  | cons tree front ih =>
    rw [List.cons_append, sowAll, ih]
    rfl

mutual

/-- Building a fixture without faults is planting its tree. -/
theorem build_eq_sow : ∀ (fixture : Fixture) {tree : Outline} (d : Document) (parent : NodeId),
    fixture.outline? = some tree → d.build parent fixture = (d.sow parent tree, .ok d.size)
  | .node none _ _ _ text _, tree, d, parent, htree => by
    obtain ⟨content, rfl, rfl⟩ := Option.map_eq_some_iff.mp htree
    rw [build, appendText_eq_plant]
    rfl
  | .node (some tag) id className attributes text children, tree, d, parent, htree => by
    obtain ⟨below, hbelow, rfl⟩ := Option.map_eq_some_iff.mp htree
    rw [build_element, appendElement_eq_plant]
    have hown : ∀ (d : Document) n, d.appendOwnText n text = d.sowAll n (Fixture.ownText text) := by
      intro d n
      cases text <;> rfl
    dsimp only
    rw [hown, buildAll_eq_sowAll children _ _ hbelow, sow, sowAll_append]
    rfl

theorem buildAll_eq_sowAll : ∀ (fixtures : List Fixture) {trees : List Outline} (d : Document)
    (parent : NodeId), Fixture.outlines? fixtures = some trees →
      d.buildAll parent fixtures = (d.sowAll parent trees, .ok ())
  | [], trees, d, parent, htrees => by
    obtain rfl := Option.some.inj htrees
    rfl
  | fixture :: rest, trees, d, parent, htrees => by
    obtain ⟨tree, htree, htrees⟩ := Option.bind_eq_some_iff.mp htrees
    obtain ⟨trees, hrest, rfl⟩ := Option.map_eq_some_iff.mp htrees
    rw [buildAll, build_eq_sow fixture d parent htree]
    exact buildAll_eq_sowAll rest _ parent hrest

end

mutual

/-- A fixture with a fault is refused. -/
theorem build_refused : ∀ (fixture : Fixture) (d : Document) (parent : NodeId),
    fixture.outline? = none → (d.build parent fixture).2 = .error (.config .emptyFixture)
  | .node none _ _ _ text _, d, parent, hnone => by
    obtain rfl := Option.map_eq_none_iff.mp hnone
    rfl
  | .node (some tag) id className attributes text children, d, parent, hnone => by
    have hchildren := Option.map_eq_none_iff.mp hnone
    rw [build_element]
    dsimp only
    rw [buildAll_refused children _ _ hchildren]
    rfl

theorem buildAll_refused : ∀ (fixtures : List Fixture) (d : Document) (parent : NodeId),
    Fixture.outlines? fixtures = none →
      (d.buildAll parent fixtures).2 = .error (.config .emptyFixture)
  | [], _, _, hnone => nomatch hnone
  | fixture :: rest, d, parent, hnone => by
    rw [buildAll]
    cases htree : fixture.outline? with
    | none =>
      have hfault := build_refused fixture d parent htree
      split <;> rename_i heq <;> rw [heq] at hfault
      · exact nomatch hfault
      · exact congrArg _ (Except.error.inj hfault)
    | some tree =>
      rw [Fixture.outlines?, htree, Option.bind_some] at hnone
      rw [build_eq_sow fixture d parent htree]
      exact buildAll_refused rest _ parent (Option.map_eq_none_iff.mp hnone)

end

end Sowing

/-- Whether `d'` is `d` with a number of new nodes; those that were there before are as they were and
where they were. -/
structure Grown (d d' : Document) (count : Nat) : Prop where
  rows : d'.Rows d'.children
  size_eq : d'.size = d.size + count
  xml_eq : d'.xml = d.xml
  data_eq : ∀ m < d.size, d'.data m = d.data m
  parent_eq : ∀ m < d.size, d'.parent m = d.parent m

/-- Whether, besides, only the row of `parent` is longer than it was, by `roots`. -/
structure Sown (d d' : Document) (parent : NodeId) (roots : List NodeId) (count : Nat) : Prop
    extends Grown d d' count where
  children_eq : ∀ m < d.size,
    d'.children m = if m = parent then d.children m ++ roots else d.children m

section Plant

variable {d : Document} (h : d.Rows d.children) {parent : NodeId} (hparent : parent < d.size)
  (data : NodeData)
include h hparent

lemma rows_plant :
    (d.plant parent data).Rows fun q =>
      if q = parent then d.children q ++ [d.size] else d.children q := by
  have hsize : (d.create data).1.size = d.size + 1 := Array.size_push _
  have hfresh : ∀ q, (d.children q).erase d.size = d.children q := fun q =>
    List.erase_of_not_mem fun hmem => Nat.lt_irrefl _ (h.lt_size hmem)
  have hnew := (h.of_sameLinks (sameLinks_create d data)).appendChild (Nat.ne_of_lt hparent)
    (hsize ▸ Nat.lt_succ_of_lt hparent) (hsize ▸ Nat.lt_succ_self d.size)
  simp only [hfresh] at hnew
  exact hnew

lemma children_plant (q : NodeId) :
    (d.plant parent data).children q =
      if q = parent then d.children q ++ [d.size] else d.children q :=
  (rows_plant h hparent data).children_eq q

lemma sown_plant : Sown d (d.plant parent data) parent [d.size] 1 where
  rows := by
    have hrows := rows_plant h hparent data
    rwa [← hrows.rows_eq] at hrows
  size_eq := by
    rw [plant, size_appendChild]
    exact Array.size_push _
  xml_eq := xml_appendChild _ _ _
  data_eq m hm := by
    rw [plant, data_appendChild, data_create, if_neg (Nat.ne_of_lt hm)]
  parent_eq m hm := by
    have hsize : (d.create data).1.size = d.size + 1 := Array.size_push _
    rw [plant, parent_appendChild (Nat.ne_of_lt hparent) (hsize ▸ Nat.lt_succ_of_lt hparent)
      (hsize ▸ Nat.lt_succ_self d.size), if_neg (Nat.ne_of_lt hm), (sameLinks_create d data).parent]
  children_eq m _ := children_plant h hparent data m

end Plant

section Sown

variable {d d' d'' : Document} {parent : NodeId} {roots more : List NodeId} {count later : Nat}

lemma Grown.lt_size (h : Grown d d' count) {m : NodeId} (hm : m < d.size) : m < d'.size :=
  Nat.lt_of_lt_of_le hm (h.size_eq ▸ Nat.le_add_right _ _)

lemma Grown.trans (h : Grown d d' count) (h' : Grown d' d'' later) :
    Grown d d'' (count + later) where
  rows := h'.rows
  size_eq := by rw [h'.size_eq, h.size_eq, Nat.add_assoc]
  xml_eq := h'.xml_eq.trans h.xml_eq
  data_eq m hm := (h'.data_eq m (h.lt_size hm)).trans (h.data_eq m hm)
  parent_eq m hm := (h'.parent_eq m (h.lt_size hm)).trans (h.parent_eq m hm)

/-- What is sown under the same parent later comes after it. -/
theorem Sown.trans (h : Sown d d' parent roots count) (h' : Sown d' d'' parent more later) :
    Sown d d'' parent (roots ++ more) (count + later) where
  toGrown := h.toGrown.trans h'.toGrown
  children_eq m hm := by
    rw [h'.children_eq m (h.lt_size hm), h.children_eq m hm]
    split
    · rw [List.append_assoc]
    · rfl

/-- What is sown under a new node does not change the rows that were there before it. -/
theorem Sown.below (h : Sown d d' parent roots count) (h' : Sown d' d'' d.size more later) :
    Sown d d'' parent roots (count + later) where
  toGrown := h.toGrown.trans h'.toGrown
  children_eq m hm := by
    rw [h'.children_eq m (h.lt_size hm), if_neg (Nat.ne_of_lt hm), h.children_eq m hm]

end Sown

mutual

/-- What a document shows depends on the numbered nodes only. -/
theorem Shows.congr {d d' : Document} (hxml : d'.xml = d.xml) : ∀ (tree : Outline) {n : Nat},
    d.Shows n tree →
    (∀ m : Nat, n ≤ m → m < n + tree.count → d'.data m = d.data m ∧ d'.children m = d.children m) →
    d'.Shows n tree
  | .node label below, n, ⟨hlabel, hchildren, hbelow⟩, hsame => by
    have hcount : (Outline.node label below).count = Outline.countAll below + 1 := rfl
    obtain ⟨hdata, hrow⟩ := hsame n (Nat.le_refl n) (by omega)
    refine ⟨hlabel.congr hxml hdata, hrow.trans hchildren,
      ShowsAll.congr hxml below hbelow fun m hle hlt => hsame m (by omega) (by omega)⟩

theorem ShowsAll.congr {d d' : Document} (hxml : d'.xml = d.xml) : ∀ (trees : List Outline)
    {n : Nat}, d.ShowsAll n trees →
    (∀ m : Nat, n ≤ m → m < n + Outline.countAll trees →
      d'.data m = d.data m ∧ d'.children m = d.children m) →
    d'.ShowsAll n trees
  | [], _, _, _ => trivial
  | tree :: rest, n, ⟨htree, hrest⟩, hsame => by
    have hcount : Outline.countAll (tree :: rest) = tree.count + Outline.countAll rest := rfl
    exact ⟨Shows.congr hxml tree htree fun m hle hlt => hsame m hle (by omega),
      ShowsAll.congr hxml rest hrest fun m hle hlt => hsame m (by omega) (by omega)⟩

end

mutual

/-- Planting a tree makes it show under its parent. -/
theorem sow_spec : ∀ (tree : Outline) {d : Document} (_ : d.Rows d.children) {parent : NodeId}
    (_ : parent < d.size),
    Sown d (d.sow parent tree) parent [d.size] tree.count ∧ (d.sow parent tree).Shows d.size tree
  | .node label below, d, h, parent, hparent => by
    have hplanted := sown_plant h hparent (label.data d.xml)
    have hsize : (d.plant parent (label.data d.xml)).size = d.size + 1 := hplanted.size_eq
    obtain ⟨hsown, hbelow⟩ := sowAll_spec below hplanted.rows (by omega : d.size < _)
    have hall := hplanted.below hsown
    rw [Nat.add_comm] at hall
    refine ⟨hall, OutlineLabel.holds_of_data ?_, ?_, ?_⟩
    · rw [sow, hsown.data_eq d.size (by omega), hsown.xml_eq, hplanted.xml_eq, plant,
        data_appendChild, data_create, if_pos rfl]
    · have hnone : d.children d.size = [] := List.eq_nil_iff_forall_not_mem.mpr fun c hc =>
        Nat.lt_irrefl _ (h.parent_lt_size hc)
      rw [sow, hsown.children_eq d.size (by omega), if_pos rfl, children_plant h hparent,
        if_neg (Nat.ne_of_gt hparent), hnone, hsize]
      rfl
    · rw [sow, ← hsize]
      exact hbelow

theorem sowAll_spec : ∀ (trees : List Outline) {d : Document} (_ : d.Rows d.children)
    {parent : NodeId} (_ : parent < d.size),
    Sown d (d.sowAll parent trees) parent (Outline.roots d.size trees) (Outline.countAll trees) ∧
      (d.sowAll parent trees).ShowsAll d.size trees
  | [], d, h, parent, _ => by
    refine ⟨⟨⟨h, rfl, rfl, fun _ _ => rfl, fun _ _ => rfl⟩, fun m _ => ?_⟩, trivial⟩
    rw [Outline.roots, List.append_nil, ite_self]
    rfl
  | tree :: rest, d, h, parent, hparent => by
    obtain ⟨hsown, hshows⟩ := sow_spec tree h hparent
    obtain ⟨hmore, hrest⟩ := sowAll_spec rest hsown.rows (hsown.lt_size hparent)
    rw [hsown.size_eq] at hmore hrest
    refine ⟨hsown.trans hmore, Shows.congr hmore.xml_eq tree hshows fun m hle hlt => ?_, hrest⟩
    have hm : m < (d.sow parent tree).size := hsown.size_eq ▸ hlt
    refine ⟨hmore.data_eq m hm, ?_⟩
    rw [hmore.children_eq m hm, if_neg (Nat.ne_of_gt (Nat.lt_of_lt_of_le hparent hle))]

end

/-- The neighbours of a node that was there before, once one node was added under `parent`: only the
last child of the parent has a new one. -/
theorem Sown.siblings {d d' : Document} (h : d.Rows d.children) {parent n : NodeId} {count : Nat}
    (hsown : Sown d d' parent [n] count) {m : NodeId} (hm : m < d.size) :
    d'.previousSibling m = d.previousSibling m ∧
      d'.nextSibling m = if d.lastChild parent = some m then some n else d.nextSibling m := by
  have hparent := hsown.parent_eq m hm
  cases hq : d.parent m with
  | none =>
    have horphan := hsown.rows.orphan (hparent.trans hq)
    rw [if_neg (h.lastChild_ne (h.not_mem_of_orphan hq parent)), horphan.1, horphan.2,
      (h.orphan hq).1, (h.orphan hq).2]
    exact ⟨rfl, rfl⟩
  | some q =>
    have hmem := h.mem_iff.mpr hq
    obtain ⟨before, after, hsplit⟩ := List.append_of_mem hmem
    have hrow := hsown.children_eq q (h.parent_lt_size hmem)
    rw [(h.siblings hsplit).1, (h.siblings hsplit).2]
    by_cases hqp : q = parent
    · subst hqp
      rw [if_pos rfl, hsplit, List.append_assoc, List.cons_append] at hrow
      rw [(hsown.rows.siblings hrow).1, (hsown.rows.siblings hrow).2,
        if_congr (h.lastChild_eq_some_iff hsplit) rfl rfl]
      refine ⟨rfl, ?_⟩
      cases after <;> simp
    · rw [if_neg hqp, hsplit] at hrow
      rw [(hsown.rows.siblings hrow).1, (hsown.rows.siblings hrow).2,
        if_neg (h.lastChild_ne (h.not_mem_of_ne hmem (Ne.symm hqp)))]
      exact ⟨rfl, rfl⟩

/-- The first and the last child of a node that was there before. -/
theorem Sown.ends {d d' : Document} (h : d.Rows d.children) {parent n : NodeId} {count : Nat}
    (hsown : Sown d d' parent [n] count) {m : NodeId} (hm : m < d.size) :
    (d'.firstChild m = if m = parent then (d.firstChild m).or (some n) else d.firstChild m) ∧
      d'.lastChild m = if m = parent then some n else d.lastChild m := by
  rw [hsown.rows.firstChild_eq, hsown.rows.lastChild_eq, hsown.children_eq m hm, h.firstChild_eq,
    h.lastChild_eq]
  split
  · rw [List.head?_append, List.head?_singleton, List.getLast?_concat]
    exact ⟨rfl, rfl⟩
  · exact ⟨rfl, rfl⟩

section Walk

variable {d : Document} {scope : NodeId}

/-- Whether a climb from `n` ends within as many steps as its number says. -/
def Settled (d : Document) (scope n : Nat) : Prop :=
  ∀ bound, n < bound → d.nextAfter scope bound n = d.nextAfter scope (n + 1) n

lemma settled_scope (d : Document) (scope : NodeId) : d.Settled scope scope := by
  intro bound hbound
  obtain ⟨bound, rfl⟩ := Nat.exists_eq_add_one.mpr (Nat.zero_lt_of_lt hbound)
  rw [nextAfter, nextAfter, if_pos rfl, if_pos rfl]

lemma nextAfter_succ {c p : NodeId} (hne : c ≠ scope) (hp : d.parent c = some p) (bound : Nat) :
    d.nextAfter scope (bound + 1) c = (d.nextSibling c).or (d.nextAfter scope bound p) := by
  rw [nextAfter, if_neg hne, hp]
  cases d.nextSibling c <;> rfl

/-- A child has a greater number than its parent, so a climb from it may take one step more. -/
theorem Settled.child {c p : Nat} (h : d.Settled scope p) (hne : c ≠ scope)
    (hp : d.parent c = some p) (hlt : p < c) : d.Settled scope c := by
  intro bound hbound
  obtain ⟨bound, rfl⟩ := Nat.exists_eq_add_one.mpr (Nat.zero_lt_of_lt hbound)
  rw [nextAfter_succ hne hp, nextAfter_succ hne hp, h bound (by omega), h c hlt]

variable (h : d.Rows d.children)
include h

mutual

/-- From the root of a tree that is shown on, the walk meets its numbers one after another. -/
theorem preorderFrom_shown : ∀ (tree : Outline) {n : Nat}, d.Shows n tree → scope < n →
    d.Settled scope n → ∀ bound,
      d.preorderFrom scope (bound + tree.count) (some n) =
        List.range' n tree.count ++ d.preorderFrom scope bound (d.nextAfter scope (d.size + 1) n)
  | .node label below, n, ⟨_, hchildren, hbelow⟩, hscope, hsettled, bound => by
    have hcount : (Outline.node label below).count = Outline.countAll below + 1 := rfl
    have hall : d.children n = [] ++ Outline.roots (n + 1) below := hchildren
    have hnext : d.nextInPreorder scope n =
        (Outline.roots (n + 1) below).head?.or (d.nextAfter scope (d.size + 1) n) := by
      rw [nextInPreorder, h.firstChild_eq, hchildren]
      cases (Outline.roots (n + 1) below).head? <;> rfl
    rw [hcount, ← Nat.add_assoc, preorderFrom, hnext,
      preorderFrom_shownAll below hbelow hall (Nat.le_of_lt hscope) (Nat.lt_succ_self n) hsettled
        bound]
    rfl

theorem preorderFrom_shownAll : ∀ (trees : List Outline) {m p : Nat} {before : List NodeId},
    d.ShowsAll m trees → d.children p = before ++ Outline.roots m trees → scope ≤ p → p < m →
    d.Settled scope p → ∀ bound,
      d.preorderFrom scope (bound + Outline.countAll trees)
          ((Outline.roots m trees).head?.or (d.nextAfter scope (d.size + 1) p)) =
        List.range' m (Outline.countAll trees) ++
          d.preorderFrom scope bound (d.nextAfter scope (d.size + 1) p)
  | [], m, p, before, _, _, _, _, _, bound => rfl
  | tree :: rest, m, p, before, ⟨htree, hrest⟩, hchildren, hscope, hlt, hsettled, bound => by
    have hcount : Outline.countAll (tree :: rest) = tree.count + Outline.countAll rest := rfl
    have hroots : Outline.roots m (tree :: rest) = m :: Outline.roots (m + tree.count) rest := rfl
    rw [hroots] at hchildren
    have hmem : m ∈ d.children p := hchildren ▸ by simp
    have hparent : d.parent m = some p := h.mem_iff.mp hmem
    have hbehind : scope < m := Nat.lt_of_le_of_lt hscope hlt
    have hne : m ≠ scope := Nat.ne_of_gt hbehind
    have hp : p < d.size := h.parent_lt_size hmem
    -- after the first tree the walk goes on with the next root, or above `p` if there is none
    have hnext : d.nextAfter scope (d.size + 1) m =
        (Outline.roots (m + tree.count) rest).head?.or (d.nextAfter scope (d.size + 1) p) := by
      rw [nextAfter_succ hne hparent, (h.siblings hchildren).2, hsettled _ hp,
        hsettled _ (Nat.lt_succ_of_lt hp)]
    have hsplit : d.children p = (before ++ [m]) ++ Outline.roots (m + tree.count) rest := by
      simpa using hchildren
    have hlater := preorderFrom_shownAll rest hrest hsplit hscope (by omega) hsettled bound
    rw [hcount, hroots, List.head?_cons, Option.some_or, Nat.add_comm tree.count, ← Nat.add_assoc,
      preorderFrom_shown tree htree hbehind (hsettled.child hne hparent hlt), hnext, hlater,
      ← List.append_assoc, Nat.add_comm (Outline.countAll rest), ← List.range'_append_1]

end

/-- The walk below a tree that is shown meets the numbers behind that of its root. -/
theorem Shows.descendants_eq : ∀ {tree : Outline} {n : Nat}, d.Shows n tree →
    n + tree.count ≤ d.size → d.descendants n = List.range' (n + 1) (tree.count - 1)
  | .node label below, n, ⟨_, hchildren, hbelow⟩, hsize => by
    have hcount : (Outline.node label below).count = Outline.countAll below + 1 := rfl
    have hall : d.children n = [] ++ Outline.roots (n + 1) below := hchildren
    have hnone : d.nextAfter n (d.size + 1) n = none := by rw [nextAfter, if_pos rfl]
    have hwalk := preorderFrom_shownAll h below hbelow hall (Nat.le_refl n) (Nat.lt_succ_self n)
      (d.settled_scope n) (d.size - Outline.countAll below)
    rw [Nat.sub_add_cancel (by omega), hnone, Option.or_none, ← hchildren, ← h.firstChild_eq]
      at hwalk
    rw [descendants, hwalk, hcount, Nat.add_sub_cancel]
    cases d.size - Outline.countAll below <;> simp [preorderFrom]

end Walk

/-- Building a fixture succeeds exactly if every fixture that it meets has a tag or a text. Then the
new nodes have the next numbers, in preorder, the first of them is the new last child of the parent,
and they show the tree of the fixture: the text of an element before its children, and under every
attribute name the value that was written last. No other data change, and of the links that were
there only those from the parent and from its last child to what follows. -/
theorem Reached.build_shows {d : Document} (h : d.Reached) {parent : NodeId}
    (hparent : parent < d.size) (fixture : Fixture) :
    ((∃ n, (d.build parent fixture).2 = .ok n) ↔
      ∀ entry ∈ fixture.met, entry.1.isSome ∨ entry.2.isSome) ∧
    ∀ n, (d.build parent fixture).2 = .ok n → ∃ d' tree,
      (d.build parent fixture).1 = d' ∧ fixture.outline? = some tree ∧
      n = d.size ∧ d'.size = d.size + tree.count ∧ d'.xml = d.xml ∧
      d'.children parent = d.children parent ++ [n] ∧
      d'.Shows n tree ∧ d'.descendants n = List.range' (n + 1) (tree.count - 1) ∧
      ∀ m < d.size,
        d'.data m = d.data m ∧ d'.parent m = d.parent m ∧
        d'.previousSibling m = d.previousSibling m ∧
        (d'.nextSibling m = if d.lastChild parent = some m then some n else d.nextSibling m) ∧
        (d'.firstChild m = if m = parent then (d.firstChild m).or (some n) else d.firstChild m) ∧
        d'.lastChild m = if m = parent then some n else d.lastChild m := by
  rw [← fixture.outline?_isSome_iff]
  cases htree : fixture.outline? with
  | none =>
    rw [d.build_refused fixture parent htree]
    exact ⟨⟨nofun, nofun⟩, nofun⟩
  | some tree =>
    obtain ⟨hsown, hshows⟩ := sow_spec tree h.rows hparent
    rw [build_eq_sow fixture d parent htree]
    refine ⟨⟨fun _ => rfl, fun _ => ⟨d.size, rfl⟩⟩, fun n hn => ?_⟩
    obtain rfl := Except.ok.inj hn
    refine ⟨_, tree, rfl, rfl, rfl, hsown.size_eq, hsown.xml_eq, ?_, hshows, ?_, fun m hm => ?_⟩
    · rw [hsown.children_eq parent hparent, if_pos rfl]
    · exact hshows.descendants_eq hsown.rows (Nat.le_of_eq hsown.size_eq.symm)
    · obtain ⟨hprevious, hnext⟩ := hsown.siblings h.rows hm
      exact ⟨hsown.data_eq m hm, hsown.parent_eq m hm, hprevious, hnext, hsown.ends h.rows hm⟩

/-- A third item for the sample list. Its id is written twice. -/
def thirdItem : Fixture :=
  .node (some "li") (some "y") none [("ID", "z")] (some "one")
    [.node (some "b") none none [] none []]

theorem build_shows_thirdItem :
    sample.Reached ∧ 1 < sample.size ∧ ∃ d', (sample.build 1 thirdItem).1 = d' ∧
      (sample.build 1 thirdItem).2 = .ok 4 ∧ d'.children 1 = [2, 3, 4] ∧
      d'.attribute? 4 "id" = some "z" ∧ d'.children 4 = [5, 6] ∧ d'.text 5 = some "one" ∧
      d'.descendants 4 = [5, 6] := by
  have hlist : 1 < sample.size := by decide +kernel
  obtain ⟨hbuilds, hshows⟩ := Reached.build_shows reached_sample hlist thirdItem
  obtain ⟨n, hn⟩ := hbuilds.mpr (by decide)
  obtain ⟨d', tree, hd', htree, rfl, -, hxml, hchildren, hshown, hwalk, -⟩ := hshows n hn
  have hsize : sample.size = 4 := by decide +kernel
  have hitems : sample.children 1 = [2, 3] := by decide +kernel
  have hplain : sample.xml = false := by decide +kernel
  rw [hsize] at hn hchildren hshown hwalk
  rw [hitems] at hchildren
  obtain rfl := Option.some.inj htree
  obtain ⟨⟨-, hattributes⟩, hbelow, ⟨htext, -⟩, -⟩ := hshown
  refine ⟨reached_sample, hlist, d', hd', hn, hchildren, ?_, hbelow, htext, hwalk⟩
  -- each name is folded on its own: comparing the two texts unfolds them side by side
  have hupper : "ID".toLower = "id" := by decide +kernel
  have hlower : "id".toLower = "id" := by decide +kernel
  have hsame : sameName false "ID" "id" = true := by
    rw [sameName, if_neg Bool.false_ne_true, equalFolded, hupper, hlower, beq_self_eq_true]
  rw [hattributes, hxml, hplain]
  simp [lastWritten, described, hsame]

end Document

end TreeQuery
