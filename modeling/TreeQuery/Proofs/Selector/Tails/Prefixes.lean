import TreeQuery.Proofs.Selector.Tails.Items

/-!
# Tails that break off

The argument of a pseudo-class may end in the text behind a patch, and is then scanned on its own.
What may follow a text may do so also when it breaks off.
-/

namespace TreeQuery

open Written

variable {broken : Prop} {c : Char} {x p t u : List Char}

lemma splitHex_of_append : ∀ n x, (splitHex n x).2 ≠ [] →
    splitHex n (x ++ u) = ((splitHex n x).1, (splitHex n x).2 ++ u)
  | 0, x, _ => by simp [splitHex]
  | n + 1, [], h => absurd rfl h
  | n + 1, c :: x, h => by
    rw [splitHex] at h ⊢
    rw [List.cons_append, splitHex]
    split
    · rename_i hc
      rw [if_pos hc] at h
      rw [splitHex_of_append n x h]
    · rfl

lemma escape?_of_append {e : Escape} (h : escape? x = some e) (hne : e.rest ≠ []) :
    escape? (x ++ u) = some ⟨e.raw, e.value, e.rest ++ u⟩ := by
  have hsplit := splitHex_of_append (u := u) 6 x
  unfold escape? at h ⊢
  generalize splitHex 6 x = split at h hsplit
  obtain ⟨digits, after⟩ := split
  cases after with
  | nil =>
    cases digits with
    | nil => exact nomatch h
    | cons d digits =>
      obtain rfl := Option.some.inj h
      exact absurd rfl hne
  | cons c after =>
    rw [hsplit (List.cons_ne_nil _ _)]
    cases digits with
    | nil =>
      dsimp only [List.cons_append] at h ⊢
      split at h
      · exact nomatch h
      · rename_i hend
        obtain rfl := Option.some.inj h
        rw [if_neg hend]
    | cons d digits =>
      dsimp only [List.cons_append] at h ⊢
      split at h
      · rename_i hblank
        obtain rfl := Option.some.inj h
        rw [if_pos hblank]
      · rename_i hblank
        obtain rfl := Option.some.inj h
        rw [if_neg hblank]
        rfl

lemma identifierUnit?_of_append {unit rest : List Char}
    (h : identifierUnit? x = some (unit, rest)) (hne : rest ≠ []) :
    identifierUnit? (x ++ u) = some (unit, rest ++ u) := by
  cases x with
  | nil => cases h
  | cons c x =>
    rw [identifierUnit?] at h
    rw [List.cons_append, identifierUnit?]
    split at h
    · rename_i hc
      obtain ⟨e, he, heq⟩ := Option.map_eq_some_iff.mp h
      obtain ⟨rfl, rfl⟩ := Prod.mk.inj heq
      rw [if_pos hc, escape?_of_append he hne]
      rfl
    · rename_i hc
      rw [if_neg hc]
      split at h
      · rename_i hplain
        obtain ⟨rfl, rfl⟩ := Prod.mk.inj (Option.some.inj h)
        rw [if_pos hplain]
      · cases h

/-- A name that ends in front of a character, and not in front of a backslash, ends there in every
text that goes on. -/
theorem splitIdentifier_of_append (hc : c ≠ '\\') {rest : List Char}
    (h : (splitIdentifier x).2 = c :: rest) :
    splitIdentifier (x ++ u) = ((splitIdentifier x).1, c :: rest ++ u) := by
  fun_induction splitIdentifier x with
  | case1 x hnone =>
    obtain rfl : x = c :: rest := h
    refine splitIdentifier_stop ?_
    rw [List.cons_append, identifierUnit?, if_neg hc]
    rw [identifierUnit?, if_neg hc] at hnone
    split at hnone
    · cases hnone
    · rename_i hplain
      exact if_neg hplain
  | case2 x unit after hunit more rest' heq ih =>
    rw [heq] at ih
    have hne : after ≠ [] := by
      rintro rfl
      rw [splitIdentifier] at heq
      obtain ⟨-, rfl⟩ := Prod.mk.inj heq
      cases h
    rw [splitIdentifier_of_unit (identifierUnit?_of_append hunit hne), ih h]

lemma barren_nil : Barren [] := ⟨rfl, rfl⟩

lemma barren_backslash (text : List Char) : Barren ('\\' :: text) := ⟨rfl, rfl⟩

lemma Barren.of_append (h : Barren (t ++ u)) : Barren t := by
  obtain ⟨hclose, hoperator⟩ := h
  cases hdrop : dropBlanks t with
  | nil => exact ⟨by rw [closeBracket?, hdrop], by rw [hdrop]; rfl⟩
  | cons c more =>
    rw [closeBracket?, dropBlanks_append_of_cons hdrop, List.cons_append] at hclose
    rw [dropBlanks_append_of_cons hdrop, List.cons_append] at hoperator
    constructor
    · rw [closeBracket?, hdrop]
      split at hclose
      · cases hclose
      · rename_i hother
        split
        · rename_i heq
          obtain ⟨rfl, rfl⟩ := List.cons.inj heq
          exact absurd rfl (hother _)
        · rfl
    · rw [hdrop]
      cases hfound : attributeOperator? (c :: more) with
      | none => rfl
      | some found =>
        have hmore : (attributeOperator? (c :: (more ++ u))).isSome := by
          unfold attributeOperator? at hfound
          split at hfound <;>
            first | (rename_i heq; rw [← List.cons_append, heq]; rfl) | cases hfound
        rw [hoperator] at hmore
        cases hmore

lemma barren_of_splitIdentifier {d : List Char}
    (h : ∀ name rest, splitIdentifier (d ++ u) = (name, rest) → Barren rest) :
    Barren (splitIdentifier d).2 := by
  cases hrest : (splitIdentifier d).2 with
  | nil => exact barren_nil
  | cons c rest =>
    by_cases hc : c = '\\'
    · exact hc ▸ barren_backslash rest
    · exact (h _ _ (splitIdentifier_of_append hc hrest)).of_append

section Brackets

lemma ne_backslash (hlast : c = '\\' → x = [] → False)
    (hmore : ∀ d rest, c = '\\' → x = d :: rest → False) : c ≠ '\\' := by
  intro hc
  cases x with
  | nil => exact hlast hc rfl
  | cons d rest => exact hmore d rest hc rfl

lemma quotedBody?_of_append {quote : Char} {body rest : List Char}
    (h : quotedBody? quote x = some (body, rest)) :
    quotedBody? quote (x ++ u) = some (body, rest ++ u) := by
  fun_induction quotedBody? quote x generalizing body with
  | case1 => cases h
  | case2 => cases h
  | case3 => cases h
  | case4 c x hc ih =>
    obtain ⟨⟨body', rest'⟩, hread, heq⟩ := Option.map_eq_some_iff.mp h
    obtain ⟨rfl, rfl⟩ := Prod.mk.inj heq
    rw [List.cons_append, List.cons_append, quotedBody?, if_neg hc, ih hread]
    rfl
  | case5 x hslash hescape =>
    obtain ⟨rfl, rfl⟩ := Prod.mk.inj (Option.some.inj h)
    have hquote : quote ≠ '\\' := ne_backslash hslash hescape
    rw [List.cons_append, quotedBody?, if_pos rfl]
    · exact fun heq _ => hquote heq
    · exact fun _ _ heq _ => hquote heq
  | case6 c x hslash hescape hc ih =>
    obtain ⟨⟨body', rest'⟩, hread, heq⟩ := Option.map_eq_some_iff.mp h
    obtain ⟨rfl, rfl⟩ := Prod.mk.inj heq
    have hne : c ≠ '\\' := ne_backslash hslash hescape
    rw [List.cons_append, quotedBody?, if_neg hc, ih hread]
    · rfl
    · exact fun heq _ => hne heq
    · exact fun _ _ heq _ => hne heq

lemma closeBracket?_of_append {rest : List Char} (h : closeBracket? x = some rest) :
    closeBracket? (x ++ u) = some (rest ++ u) := by
  unfold closeBracket? at h
  split at h
  · rename_i after hdrop
    obtain rfl := Option.some.inj h
    rw [closeBracket?, dropBlanks_append_of_cons hdrop]
    rfl
  · cases h

lemma attributeOperator?_of_append {found : AttributeOperator × List Char}
    (h : attributeOperator? x = some found) :
    attributeOperator? (x ++ u) = some (found.1, found.2 ++ u) := by
  unfold attributeOperator? at h
  split at h
  case h_8 => cases h
  all_goals
    obtain rfl := Option.some.inj h
    rfl

/-- What is closed by a bracket goes on neither with nothing nor with a backslash. -/
theorem cons_of_closeBracket? {after : List Char} (h : closeBracket? x = some after) :
    ∃ c rest, x = c :: rest ∧ c ≠ '\\' := by
  cases x with
  | nil => cases h
  | cons c rest =>
    refine ⟨c, rest, rfl, ?_⟩
    rintro rfl
    cases h

lemma identifier?_of_append (hc : c ≠ '\\') {name rest : List Char}
    (h : identifier? x = some (name, c :: rest)) :
    identifier? (x ++ u) = some (name, c :: rest ++ u) := by
  have hsplit := identifier?_eq_some h
  have happ := splitIdentifier_of_append (u := u) hc (by rw [hsplit])
  rw [hsplit] at happ
  obtain ⟨d, name', rfl⟩ := List.exists_cons_of_ne_nil (identifier?_append h).2
  rw [identifier?, happ]

lemma closedValue?_of_append {value rest : List Char}
    (h : closedValue? x = some (value, rest)) :
    closedValue? (x ++ u) = some (value, rest ++ u) := by
  obtain ⟨⟨value', after⟩, hvalue, hclosed⟩ := Option.bind_eq_some_iff.mp h
  obtain ⟨rest', hclose, heq⟩ := Option.map_eq_some_iff.mp hclosed
  obtain ⟨rfl, rfl⟩ := Prod.mk.inj heq
  obtain ⟨c, more, hafter, hc⟩ := cons_of_closeBracket? hclose
  have hread : checkValue? (dropBlanks (x ++ u)) = some (value', after ++ u) := by
    subst hafter
    cases hdrop : dropBlanks x with
    | nil =>
      rw [hdrop] at hvalue
      obtain ⟨heq, hne⟩ := identifier?_append hvalue
      exact absurd (List.append_eq_nil_iff.mp heq.symm).1 hne
    | cons d text =>
      rw [hdrop] at hvalue
      rw [dropBlanks_append_of_cons hdrop]
      by_cases hquote : d ∈ ['\'', '"']
      · simp only [List.mem_cons, List.not_mem_nil, or_false] at hquote
        obtain rfl | rfl := hquote <;> exact quotedBody?_of_append hvalue
      · rw [checkValue?_of_unquoted (by rintro e ⟨⟩; exact hquote)] at hvalue ⊢
        exact identifier?_of_append hc hvalue
  rw [closedValue?, hread, Option.bind_some, closed?, closeBracket?_of_append hclose]
  rfl

lemma afterName?_of_append {name rest : List Char} {test : AttributeTest}
    (h : afterName? name x = some (test, rest)) :
    afterName? name (x ++ u) = some (test, rest ++ u) := by
  cases hdrop : dropBlanks x with
  | nil =>
    have hclose : closeBracket? x = none := by rw [closeBracket?, hdrop]
    rw [afterName?, hdrop, show attributeOperator? [] = none from rfl, hclose] at h
    cases h
  | cons c more =>
    rw [afterName?, hdrop] at h
    rw [afterName?, dropBlanks_append_of_cons hdrop]
    cases hoperator : attributeOperator? (c :: more) with
    | some found =>
      obtain ⟨operator, after⟩ := found
      rw [hoperator] at h
      obtain ⟨⟨value, rest'⟩, hvalue, heq⟩ := Option.map_eq_some_iff.mp h
      obtain ⟨rfl, rfl⟩ := Prod.mk.inj heq
      rw [attributeOperator?_of_append hoperator]
      dsimp only
      rw [closedValue?_of_append hvalue]
      rfl
    | none =>
      rw [hoperator] at h
      obtain ⟨rest', hclose, heq⟩ := Option.map_eq_some_iff.mp h
      obtain ⟨rfl, rfl⟩ := Prod.mk.inj heq
      obtain rfl : c = ']' := by
        rw [closeBracket?, hdrop] at hclose
        split at hclose
        · rename_i heq
          exact (List.cons.inj heq).1
        · cases hclose
      rw [show attributeOperator? (']' :: more ++ u) = none from rfl]
      dsimp only
      rw [closeBracket?_of_append hclose]
      rfl

/-- An attribute test is read to its bracket whatever follows. -/
theorem attributeTest?_of_append {rest : List Char} {test : AttributeTest}
    (h : attributeTest? ('[' :: x) = some (test, rest)) :
    attributeTest? ('[' :: (x ++ u)) = some (test, rest ++ u) := by
  rw [attributeTest?_eq] at h ⊢
  obtain ⟨⟨name, after⟩, hname, hafter⟩ := Option.bind_eq_some_iff.mp h
  dsimp only at hafter
  obtain ⟨d, text, hdrop⟩ : ∃ d text, dropBlanks x = d :: text := by
    refine List.exists_cons_of_ne_nil fun hnil => ?_
    rw [hnil] at hname
    obtain ⟨heq, hne⟩ := identifier?_append hname
    exact hne (List.append_eq_nil_iff.mp heq.symm).1
  rw [hdrop] at hname
  rw [dropBlanks_append_of_cons hdrop]
  cases after with
  | nil => cases hafter
  | cons c after =>
    have hc : c ≠ '\\' := by
      rintro rfl
      cases hafter
    rw [identifier?_of_append hc hname, Option.bind_some]
    exact afterName?_of_append hafter

/-- A text without nested parentheses is passed over whatever follows. -/
theorem passes_of_splitPlain (h : (splitPlain x).2 = []) : Passes x := by
  intro u
  fun_induction splitPlain x with
  | case1 => rfl
  | case2 inner test rest hread more after heq ih =>
    rw [heq] at ih
    obtain ⟨inner', hinner, hsuffix⟩ := attributeTest?_suffix hread
    obtain ⟨-, rfl⟩ := List.cons.inj hinner
    obtain ⟨raw, rfl⟩ := hsuffix
    have hbefore : before ('[' :: (raw ++ rest)) rest = '[' :: raw :=
      before_append_left ('[' :: raw) rest
    have hbefore' : before ('[' :: (raw ++ rest ++ u)) (rest ++ u) = '[' :: raw := by
      rw [List.append_assoc]
      exact before_append_left ('[' :: raw) (rest ++ u)
    rw [List.cons_append, splitPlain_attribute (attributeTest?_of_append hread), ih h, hbefore']
    simp
  | case3 => cases h
  | case4 => cases h
  | case5 => cases h
  | case6 c x hc more after heq ih =>
    rw [heq] at ih
    rw [List.cons_append, List.cons_append, splitPlain, if_neg hc, ih h]
    rfl
  | case7 => cases h
  | case8 c x hbracket hslash hescape hc more after heq ih =>
    rw [heq] at ih
    have hstop : ¬(c = '(' ∨ c = ')' ∨ c = ']') := by simpa [or_assoc] using hc
    rw [List.cons_append, splitPlain_cons hbracket (ne_backslash hslash hescape), if_neg hstop,
      ih h]
    rfl

end Brackets

/-- What leaves the reading in front of it alone does so also when it breaks off. -/
theorem Tail.of_append (h : Tail (t ++ u)) : Tail t := by
  have hhead : ∀ {s : List Char} {c : Char}, c ∈ s.head? → c ∈ (s ++ u).head? := by
    intro s c hc
    rw [List.head?_append, show s.head? = some c from hc]
    rfl
  have hdropped : dropBlanks t ≠ [] → dropBlanks (t ++ u) = dropBlanks t ++ u := by
    intro hne
    obtain ⟨c, more, heq⟩ := List.exists_cons_of_ne_nil hne
    rw [dropBlanks_append_of_cons heq, heq]
  refine ⟨fun c hc => h.boundary c (hhead hc), fun c hc => h.unclosed c (hhead hc), ?_,
    h.barren.of_append, ?_, ?_⟩
  · intro c hc
    have hne : dropBlanks t ≠ [] := by
      rintro hnil
      rw [hnil] at hc
      exact nomatch hc
    exact h.unquoted c (hdropped hne ▸ hhead hc)
  · intro name rest hname
    have hne : dropBlanks t ≠ [] := by
      rintro hnil
      obtain ⟨heq, hne⟩ := identifier?_append hname
      rw [hnil] at heq
      exact hne (List.append_eq_nil_iff.mp heq.symm).1
    have hsplit := identifier?_eq_some hname
    have hbarren : Barren (splitIdentifier (dropBlanks t)).2 := by
      cases hrest : (splitIdentifier (dropBlanks t)).2 with
      | nil => exact barren_nil
      | cons c rest' =>
        by_cases hc : c = '\\'
        · exact hc ▸ barren_backslash rest'
        · have hmore : identifier? (dropBlanks (t ++ u)) = some (name, c :: rest' ++ u) := by
            have happ := splitIdentifier_of_append (u := u) hc hrest
            obtain ⟨d, name', rfl⟩ := List.exists_cons_of_ne_nil (identifier?_append hname).2
            rw [hdropped hne, identifier?, happ, hsplit]
          exact (h.barren_name _ _ hmore).of_append
    rwa [hsplit] at hbarren
  · cases t with
    | nil =>
      have hstop : splitIdentifier ([] : List Char) = ([], []) := splitIdentifier_stop rfl
      rw [afterBlank, hstop]
      exact barren_nil
    | cons c t =>
      refine barren_of_splitIdentifier (u := u) fun name rest hsplit => ?_
      have hopen := h.barren_open
      have hafter : afterBlank (c :: t ++ u) = afterBlank (c :: t) ++ u := by
        rw [List.cons_append, afterBlank, afterBlank]
        split <;> rfl
      rwa [hafter, hsplit] at hopen

lemma Piece.of_append {b : List Char} (h : Piece (b ++ u) p) : Piece b p := by
  have hne : b ≠ [] → b ++ u ≠ [] := fun hb hnil => hb (List.append_eq_nil_iff.mp hnil).1
  refine ⟨h.inert, ?_, h.unclosed, fun hb => h.silent (hne hb)⟩
  have htail := h.tail
  rw [← List.append_assoc] at htail
  exact htail.of_append

lemma Patch.of_append {b : List Char} (h : Patch broken (b ++ u) p) : Patch broken b p :=
  ⟨h.toPiece.of_append, fun hb => h.line fun hnil => hb (List.append_eq_nil_iff.mp hnil).1⟩

end TreeQuery
