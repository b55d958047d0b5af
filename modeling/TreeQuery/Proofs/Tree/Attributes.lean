import Mathlib.Data.List.Induction
import TreeQuery.Proofs.Tree.Mutators

/-!
# Attributes that are set one after another

Setting an attribute changes what is found under every name that is the same name, and nothing else,
so after several settings a name finds what was written last under it.
-/

namespace TreeQuery

lemma sameName_congr {xml : Bool} {a b : String} (h : sameName xml a b = true) (name : String) :
    sameName xml a name = sameName xml b name := by
  cases xml with
  | true => rw [beq_iff_eq.mp h]
  | false =>
    have hfolded : a.toLower = b.toLower := beq_iff_eq.mp h
    show (a.toLower == name.toLower) = (b.toLower == name.toLower)
    rw [hfolded]

lemma sameName_comm (xml : Bool) (a b : String) : sameName xml a b = sameName xml b a := by
  cases xml with
  | true => exact BEq.comm
  | false => exact BEq.comm

/-- The value of the last of some settings that was written under a name. -/
def lastWritten (xml : Bool) (written : List (String × String)) (name : String) : Option String :=
  (written.reverse.find? fun entry => sameName xml entry.1 name).map (·.2)

namespace ElementData

variable (xml : Bool)

lemma attribute?_setAttribute (e : ElementData) (name value asked : String) :
    (e.setAttribute xml name value).attribute? xml asked =
      if sameName xml name asked then some value else e.attribute? xml asked := by
  obtain ⟨tag, attributes⟩ := e
  unfold setAttribute attribute?
  dsimp only
  induction attributes with
  | nil =>
    rw [setAttribute.go, List.find?_singleton]
    split <;> rfl
  | cons entry rest ih =>
    rw [setAttribute.go, List.find?_cons]
    split
    · rename_i hsame
      rw [List.find?_cons, sameName_congr hsame]
      cases sameName xml name asked <;> rfl
    · rename_i hother
      rw [List.find?_cons]
      cases hasked : sameName xml entry.1 asked with
      | false => exact ih
      | true =>
        -- the name that is set is another one than the name of this entry, so it is not asked for
        have hnot : sameName xml name asked ≠ true := fun hname => by
          rw [sameName_comm, sameName_congr hname, sameName_comm] at hother
          exact hother hasked
        rw [if_neg hnot]

def setAll (e : ElementData) (written : List (String × String)) : ElementData :=
  written.foldl (fun e entry => e.setAttribute xml entry.1 entry.2) e

lemma name_setAll (e : ElementData) (written : List (String × String)) :
    (e.setAll xml written).name = e.name := by
  induction written generalizing e with
  | nil => rfl
  | cons entry rest ih => exact ih (e.setAttribute xml entry.1 entry.2)

/-- A name finds what was written last under it. -/
theorem attribute?_setAll (tag : String) (written : List (String × String)) (name : String) :
    (setAll xml ⟨tag, []⟩ written).attribute? xml name = lastWritten xml written name := by
  induction written using List.reverseRecOn with
  | nil => rfl
  | append_singleton written entry ih =>
    rw [setAll, List.foldl_append, List.foldl_cons, List.foldl_nil, attribute?_setAttribute,
      lastWritten, List.reverse_concat, List.find?_cons]
    cases sameName xml entry.1 name with
    | true => rfl
    | false => exact ih

end ElementData

end TreeQuery
