import TreeQuery.Proofs.Selector.Tails.Lexemes

/-!
# Scans in front of a patch

Tokens that are read from the text in front of a patch are read from it whatever the patch is. The
arguments that are cut are scanned with what stands behind the patch, so the same is proved first of
the place where a scan stops.
-/

namespace TreeQuery

variable {broken : Prop} {afterToken : Bool} {x y z p q text : List Char} {ts us : Clause}

lemma Settled.of_suffix {a : List Char} (hx : Settled x) (h : '(' :: a <:+ x) : Settled a := by
  obtain ⟨front, rfl⟩ := h
  exact hx.of_append (by decide)

/-- Where the scan of a text stops in front of a parenthesis of it does not depend on the patch. -/
theorem stopsAlike {x : List Char} (hx : Settled x) : StopsAlike broken x := by
  intro afterToken y p q x' hp hq hmem h
  cases hitem : (Lexeme.next afterToken (x ++ (p ++ y))).item? with
  | none =>
    rw [(scan_of_none hitem).2] at h
    obtain rfl := List.append_cancel_right h
    have hstuck : (Lexeme.next afterToken (x ++ (p ++ y))).item?.isSome =
        (Lexeme.next afterToken (x ++ (q ++ y))).item?.isSome :=
      isSome_next hx hmem hp.toPiece hq.toPiece
    rw [hitem] at hstuck
    have hnone := Option.not_isSome_iff_eq_none.mp (Bool.eq_false_iff.mp hstuck.symm)
    exact (scan_of_none hnone).2
  | some found =>
    obtain ⟨item, rest⟩ := found
    obtain ⟨raw, htext, hraw, hsettled⟩ := Lexeme.next_raw hitem
    rw [scan_rest_of_item hitem] at h
    obtain ⟨skipped, hskipped⟩ := scan_rest_suffix item.isSome rest
    rw [h, ← List.append_assoc] at hskipped
    subst hskipped
    -- The scan goes on in front of the parenthesis, with a shorter text.
    have hx' : x = raw ++ (skipped ++ x') := by
      rw [← List.append_assoc raw] at htext
      exact List.append_cancel_right htext
    have hmem' : ')' ∈ skipped ++ x' := List.mem_append_right _ hmem
    have hne : (skipped ++ x') ++ p ≠ [] := List.ne_nil_of_mem (List.mem_append_left _ hmem')
    have hcalls : CallsAlike x (skipped ++ x') (p ++ y) (q ++ y) item := callsAlike hp hq hne
      fun a ha => have hlength := ha.length_le; stopsAlike (hx.of_suffix ha)
    have hitem' := next_swap hx hp.toPiece hq.toPiece hne hcalls (.inl hmem')
      (fun hnil => absurd (hnil ▸ hmem') List.not_mem_nil) hitem
    have hpos := List.length_pos_iff.mpr hraw
    rw [scan_rest_of_item hitem']
    exact stopsAlike (hsettled.of_append_left (hx' ▸ hx)) item.isSome hp hq hmem h
termination_by x.length
decreasing_by
  · rw [List.length_cons] at hlength
    omega
  · rw [hx']
    simp only [List.length_append]
    omega

namespace Clause

/-- The characters of a row of tokens. -/
def chars (ts : Clause) : List Char :=
  ts.flatMap fun t => t.raw.toList

lemma toList_text (ts : Clause) : ts.text.toList = ts.chars := by
  induction ts with
  | nil => rfl
  | cons t ts ih =>
    rw [chars, List.flatMap_cons, ← chars, ← ih]
    exact String.toList_append

@[simp] lemma chars_nil : chars [] = [] := rfl

@[simp] lemma chars_cons (t : Token) (ts : Clause) : chars (t :: ts) = t.raw.toList ++ ts.chars :=
  List.flatMap_cons

@[simp] lemma chars_append (ts us : Clause) : chars (ts ++ us) = ts.chars ++ us.chars :=
  List.flatMap_append

end Clause

/-- The first token of a scan and the text behind it. -/
theorem scan_first {t : Token} (h : (scan afterToken text).first = t :: us) :
    ∃ rest, (Lexeme.next afterToken text).item? = some (some t.value, rest) ∧
      text = t.raw.toList ++ rest ∧ scan afterToken text = (scan true rest).cons t ∧
        (scan true rest).first = us := by
  cases hitem : (Lexeme.next afterToken text).item? with
  | none =>
    have hclauses := (scan_of_none hitem).1
    rw [Scan.clauses, h] at hclauses
    exact nomatch hclauses
  | some found =>
    obtain ⟨item, rest⟩ := found
    cases item with
    | none =>
      rw [scan_of_comma hitem] at h
      exact nomatch h
    | some value =>
      obtain ⟨raw, rfl, -, -⟩ := Lexeme.next_raw hitem
      have hscan := scan_of_token hitem
      rw [before_append_left] at hscan
      rw [hscan] at h
      obtain ⟨rfl, rfl⟩ := List.cons.inj h
      exact ⟨rest, rfl, by rw [String.toList_ofList], hscan, rfl⟩

lemma next_open (afterToken : Bool) (rest : List Char) :
    (Lexeme.next afterToken ('(' :: rest)).item? = none := by
  have hname : identifier? ('(' :: rest) = none :=
    Written.identifier?_eq_none (Written.identifierUnit?_eq_none (by decide))
  rw [Written.next_eq_simpleTest (by decide) (by decide), simpleTest_other (by decide),
    namedLexeme, hname]
  rfl

lemma scan_open (afterToken : Bool) (rest : List Char) :
    (scan afterToken ('(' :: rest)).first = [] :=
  (List.cons.inj (scan_of_none (next_open afterToken rest)).1).1

end TreeQuery
