import TreeQuery.Proofs.Tree.Orderly
import TreeQuery.Proofs.Engine.Narrowing

/-!
# Indexes of pages

The indexes of a page search every attribute of an element, a selector looks at the first one of a
name. Where no element has two attributes of one name, they agree, and the page is an exact host.
-/

namespace TreeQuery

lemma sameName_trans {xml : Bool} {a b name : String} (ha : sameName xml a name = true)
    (hb : sameName xml b name = true) : sameName xml a b = true := by
  unfold sameName equalFolded at *
  cases xml with
  | false =>
    simp only [Bool.false_eq_true, if_false, beq_iff_eq] at ha hb ⊢
    rw [ha, hb]
  | true =>
    simp only [if_true, beq_iff_eq] at ha hb ⊢
    rw [ha, hb]

def ElementData.NamesOnce (xml : Bool) (e : ElementData) : Prop :=
  e.attributes.Pairwise fun a b => sameName xml a.1 b.1 = false

/-- Among attributes of different names, the ones of a name are the first one of it. -/
theorem ElementData.any_attributes {xml : Bool} {e : ElementData} (he : e.NamesOnce xml)
    (name : String) (keep : String → Bool) :
    (e.attributes.any fun entry => sameName xml entry.1 name && keep entry.2) =
      (e.attribute? xml name).any keep := by
  unfold attribute?
  unfold NamesOnce at he
  generalize e.attributes = attributes at he ⊢
  induction attributes with
  | nil => rfl
  | cons entry rest ih =>
    obtain ⟨hfirst, hrest⟩ := List.pairwise_cons.mp he
    rw [List.any_cons, List.find?_cons]
    by_cases hentry : sameName xml entry.1 name = true
    · have hnone : (rest.any fun other => sameName xml other.1 name && keep other.2) = false := by
        rw [List.any_eq_false]
        intro other hother hboth
        have hsame := sameName_trans hentry (Bool.and_eq_true_iff.mp hboth).1
        rw [hfirst other hother] at hsame
        simp at hsame
      rw [hnone, hentry, Bool.true_and, Bool.or_false]
      rfl
    · rw [Bool.not_eq_true] at hentry
      rw [hentry, Bool.false_and, Bool.false_or, ih hrest]

namespace Document

/-- Whether no element has two attributes of one name. -/
def NamesOnce (d : Document) : Prop :=
  ∀ n e, d.element n = some e → e.NamesOnce d.xml

variable {d : Document}

instance {xml : Bool} {e : ElementData} : Decidable (e.NamesOnce xml) :=
  inferInstanceAs (Decidable (List.Pairwise _ _))

lemma namesOnce_of_lt (h : ∀ n < d.size, ∀ e ∈ d.element n, e.NamesOnce d.xml) :
    d.NamesOnce := by
  intro n e he
  have helem : d.isElement n = true := by simp [isElement, he]
  exact h n (lt_size_of_isElement helem) e he

lemma IsForest.mem_elementsWhere (hforest : d.IsForest) {scope n : NodeId}
    {keep : ElementData → Bool} :
    n ∈ d.elementsWhere scope keep ↔ Relation.TransGen (Linked d.parent) n scope ∧
      d.isElement n = true ∧ (d.element n).any keep = true := by
  rw [elementsWhere, List.mem_filter, hforest.mem_descendantElements, and_assoc]

lemma NamesOnce.any_element (hnames : d.NamesOnce) (n : NodeId) (name : String)
    (keep : String → Bool) :
    ((d.element n).any fun e =>
      e.attributes.any fun entry => sameName d.xml entry.1 name && keep entry.2) =
      (d.attribute? n name).any keep := by
  unfold attribute?
  cases he : d.element n with
  | none => rfl
  | some e => exact ElementData.any_attributes (hnames n e he) name keep

end Document

namespace HookedPage

variable {p : HookedPage} (hforest : p.document.IsForest) (hnames : p.document.NamesOnce)
include hforest hnames

lemma indexesExact_host : p.host.IndexesExact where
  byId _ scope name n := by
    have hid : ((p.document.element n).any fun e => e.attributes.any fun entry =>
        sameName p.document.xml entry.1 "id" && entry.2 == name) =
        (Seed.id name).describes p.host n := by
      rw [hnames.any_element n "id" (· == name), Seed.describes, document_host]
      cases p.document.attribute? n "id" <;> rfl
    rw [elementsById_host, document_host, Document.elementsById, hforest.mem_elementsWhere, hid]
    exact ⟨fun h => h.2, fun hbelow helem hdescribes => ⟨hbelow, helem, hdescribes⟩⟩
  byTag _ scope name hname n := by
    have htag : ((p.document.element n).any fun e => sameName p.document.xml e.name name) =
        (Seed.tag name).describes p.host n := by
      rw [Seed.describes, document_host, xml_host, Document.hasTag, Document.localName,
        Option.any_map]
    rw [elementsByTag_host, document_host, Document.elementsByTag, if_neg (by simpa using hname),
      hforest.mem_elementsWhere, htag]
  byClass _ scope word n := by
    have hclass : ((p.document.element n).any fun e => e.attributes.any fun entry =>
        sameName p.document.xml entry.1 "class" &&
          (blankWords entry.2.toList).contains word.toList) =
        (Seed.className word).describes p.host n := by
      rw [hnames.any_element n "class" fun value => (blankWords value.toList).contains word.toList,
        Seed.describes, document_host]
    rw [elementsByClass_host, document_host, Document.elementsByClass, hforest.mem_elementsWhere,
      hclass]

lemma exact_host : p.host.Exact where
  forest := by simpa using hforest
  indexes := indexesExact_host hforest hnames
  order := comparesInOrder_host hforest

end HookedPage

end TreeQuery
