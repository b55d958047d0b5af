import TreeQuery.Proofs.Selector.Tails.Scans

/-!
# Tokens that are cut out

An id, a class or a tag is read as a name. Behind it stands nothing or another simple test, so
without it no name and no attribute test in front of it goes on.
-/

namespace TreeQuery

open Written

variable {broken : Prop} {afterToken : Bool} {c : Char} {x y z k p q name text rest : List Char}
  {ts us : Clause} {value : TokenValue}

section Tests

lemma callLexeme_pseudo {spelled : List Char} {split : Argument × List Char}
    {item : Option TokenValue} (h : (callLexeme spelled split).item? = some (item, rest)) :
    ∃ call, item = some (.pseudo call) := by
  obtain ⟨argument, after⟩ := split
  cases argument with
  | absent => exact ⟨_, (Prod.mk.inj (Option.some.inj h)).1.symm⟩
  | quoted body => exact ⟨_, (Prod.mk.inj (Option.some.inj h)).1.symm⟩
  | plain argument => exact ⟨_, (Prod.mk.inj (Option.some.inj h)).1.symm⟩
  | line argument =>
    rw [callLexeme] at h
    split at h
    · exact ⟨_, (Prod.mk.inj (Option.some.inj h)).1.symm⟩
    · exact ⟨_, (Prod.mk.inj (Option.some.inj h)).1.symm⟩

/-- How a simple test starts that is read. -/
inductive Start : TokenValue → List Char → List Char → Prop where
  | star {rest : List Char} : Start (.tag "*") ('*' :: rest) rest
  | id {name rest : List Char} : identifier? (name ++ rest) = some (name, rest) →
      Start (.id (String.ofList (unescape name))) ('#' :: (name ++ rest)) rest
  | className {name rest : List Char} : identifier? (name ++ rest) = some (name, rest) →
      Start (.className (String.ofList (unescape name))) ('.' :: (name ++ rest)) rest
  | bracket {test : AttributeTest} {text rest : List Char} :
      Start (.attribute test) ('[' :: text) rest
  | structural {position : StructuralPosition} {text rest : List Char} :
      Start (.structural position) (':' :: text) rest
  | pseudo {call : PseudoClass} {text rest : List Char} : Start (.pseudo call) (':' :: text) rest
  | tag {name rest : List Char} : identifier? (name ++ rest) = some (name, rest) →
      Start (.tag (String.ofList (unescape name))) (name ++ rest) rest

lemma simpleTest_start {item : Option TokenValue}
    (h : (simpleTest text).item? = some (item, rest)) :
    ∃ value, item = some value ∧ Start value text rest := by
  cases text with
  | nil => cases h
  | cons c text =>
    by_cases hc : c ∈ ['*', '#', '.', '[', ':']
    · simp only [List.mem_cons, List.not_mem_nil, or_false] at hc
      obtain rfl | rfl | rfl | rfl | rfl := hc
      · obtain ⟨rfl, rfl⟩ := Prod.mk.inj (Option.some.inj h)
        exact ⟨_, rfl, .star⟩
      · obtain ⟨name, hname, rfl⟩ := namedLexeme_item? .id h
        obtain ⟨rfl, -⟩ := identifier?_append hname
        exact ⟨_, rfl, .id hname⟩
      · obtain ⟨name, hname, rfl⟩ := namedLexeme_item? .className h
        obtain ⟨rfl, -⟩ := identifier?_append hname
        exact ⟨_, rfl, .className hname⟩
      · rw [simpleTest_bracket_eq] at h
        split at h
        · obtain ⟨rfl, rfl⟩ := Prod.mk.inj (Option.some.inj h)
          exact ⟨_, rfl, .bracket⟩
        · cases h
      · rw [simpleTest_colon_eq] at h
        split at h
        · obtain ⟨rfl, rfl⟩ := Prod.mk.inj (Option.some.inj h)
          exact ⟨_, rfl, .structural⟩
        · cases h
        · rw [pseudo?_eq] at h
          cases hname : identifier? text with
          | none =>
            rw [hname] at h
            cases h
          | some found =>
            rw [hname, Option.map_some, Option.getD_some] at h
            obtain ⟨call, rfl⟩ := callLexeme_pseudo h
            exact ⟨_, rfl, .pseudo⟩
    · rw [simpleTest_other hc] at h
      obtain ⟨name, hname, rfl⟩ := namedLexeme_item? .tag h
      obtain ⟨heq, -⟩ := identifier?_append hname
      rw [heq] at hname ⊢
      exact ⟨_, rfl, .tag hname⟩

lemma continuesIdentifier_of_identifier? {found : List Char × List Char}
    (h : identifier? (c :: text) = some found) : continuesIdentifier c = true := by
  cases hc : continuesIdentifier c with
  | true => rfl
  | false => exact nomatch (identifier?_eq_none (identifierUnit?_eq_none hc)).symm.trans h

lemma Start.head (h : Start value text rest) :
    ∀ c ∈ text.head?, c ∈ ['*', '#', '.', '[', ':'] ∨ continuesIdentifier c = true := by
  cases h with
  | star => exact fun c hc => .inl (by simp [← Option.some.inj hc])
  | id => exact fun c hc => .inl (by simp [← Option.some.inj hc])
  | className => exact fun c hc => .inl (by simp [← Option.some.inj hc])
  | bracket => exact fun c hc => .inl (by simp [← Option.some.inj hc])
  | structural => exact fun c hc => .inl (by simp [← Option.some.inj hc])
  | pseudo => exact fun c hc => .inl (by simp [← Option.some.inj hc])
  | tag hname =>
    intro c hc
    obtain ⟨more, heq⟩ := List.head?_eq_some_iff.mp hc
    rw [heq] at hname
    exact .inr (continuesIdentifier_of_identifier? hname)

lemma Start.filter (h : Start value text rest)
    (hvalue : (∃ name, value = .id name) ∨ ∃ name, value = .className name) :
    ∃ c ∈ ['#', '.'], ∃ name, text = c :: (name ++ rest) ∧
      identifier? (name ++ rest) = some (name, rest) := by
  cases h with
  | id hname => exact ⟨'#', by decide, _, rfl, hname⟩
  | className hname => exact ⟨'.', by decide, _, rfl, hname⟩
  | _ => simp at hvalue

lemma Start.tagName (h : Start value text rest) {tag : String} (hvalue : value = .tag tag)
    (hstar : tag ≠ "*") :
    ∃ name, text = name ++ rest ∧ identifier? (name ++ rest) = some (name, rest) := by
  cases h with
  | star => exact absurd (TokenValue.tag.inj hvalue).symm hstar
  | tag hname => exact ⟨_, rfl, hname⟩
  | _ => exact nomatch hvalue

/-- A token that is no combinator is read as a simple test, in front of a token and behind one. -/
theorem next_test (h : (Lexeme.next afterToken text).item? = some (some value, rest))
    (hvalue : ∀ k, value ≠ .combinator k) :
    Solid text ∧ Start value text rest ∧ ∀ f, Lexeme.next f text = simpleTest text := by
  cases hdrop : dropBlanks text with
  | nil =>
    obtain ⟨raw, htext, hraw, -⟩ := Lexeme.next_raw h
    rw [next_of_nil hdrop (by simp [htext, hraw])] at h
    exact absurd (Option.some.inj (Prod.mk.inj (Option.some.inj h)).1).symm (hvalue _)
  | cons c more =>
    rw [next_of_cons hdrop] at h
    by_cases hcomma : afterToken = true ∧ c = ','
    · rw [if_pos hcomma] at h
      exact nomatch (Prod.mk.inj (Lexeme.separation_item? h)).1
    · rw [if_neg hcomma] at h
      cases hsign : signOf? c with
      | some k =>
        rw [hsign] at h
        exact absurd (Option.some.inj (Prod.mk.inj (Option.some.inj h)).1).symm (hvalue _)
      | none =>
        rw [hsign] at h
        dsimp only at h
        by_cases hlength : (c :: more).length < text.length
        · rw [if_pos hlength] at h
          exact absurd (Option.some.inj (Prod.mk.inj (Option.some.inj h)).1).symm (hvalue _)
        · rw [if_neg hlength] at h
          have htext : dropBlanks text = text :=
            (dropBlanks_suffix text).eq_of_length_le (by rw [hdrop]; omega)
          obtain rfl : text = c :: more := htext.symm.trans hdrop
          obtain ⟨value', hitem, hstart⟩ := simpleTest_start h
          obtain rfl := Option.some.inj hitem
          have hsigns : c ∉ [',', '>', '+', '~'] := by
            intro hmem
            have hhead := hstart.head c rfl
            simp only [List.mem_cons, List.not_mem_nil, or_false] at hmem
            obtain rfl | rfl | rfl | rfl := hmem <;> exact absurd hhead (by decide)
          have hblank := isBlank_of_dropBlanks htext c rfl
          refine ⟨?_, hstart, fun f => next_eq_simpleTest hblank hsigns f more⟩
          rintro d ⟨⟩
          exact ⟨hblank, hsigns⟩

end Tests

section Continuations

/-- Whether nothing is left of a text, or it starts with a simple test that is no name. -/
structure Continues (text : List Char) : Prop where
  head : ∀ c ∈ text.head?, c ∈ ['*', '#', '.', '[', ':']
  unequal : attributeOperator? text = none

namespace Continues

lemma nil : Continues [] := ⟨nofun, rfl⟩

lemma cons (hc : c ∈ ['#', '.', '[', ':']) (text : List Char) : Continues (c :: text) := by
  simp only [List.mem_cons, List.not_mem_nil, or_false] at hc
  obtain rfl | rfl | rfl | rfl := hc
  · exact ⟨by rintro d ⟨⟩; decide, rfl⟩
  · exact ⟨by rintro d ⟨⟩; decide, rfl⟩
  · exact ⟨by rintro d ⟨⟩; decide, rfl⟩
  · exact ⟨by rintro d ⟨⟩; decide, rfl⟩

variable (h : Continues text)
include h

lemma of_head {P : Char → Prop} (hP : P '*' ∧ P '#' ∧ P '.' ∧ P '[' ∧ P ':') :
    ∀ c ∈ text.head?, P c := by
  intro c hc
  obtain ⟨hstar, hid, hclass, hbracket, hcolon⟩ := hP
  have hmark := h.head c hc
  simp only [List.mem_cons, List.not_mem_nil, or_false] at hmark
  obtain rfl | rfl | rfl | rfl | rfl := hmark <;> assumption

lemma solid : Solid text := h.of_head (by decide)

lemma boundary : Boundary text := h.of_head (by decide)

lemma dropBlanks_eq : dropBlanks text = text := dropBlanks_eq_self fun c hc => (h.solid c hc).1

lemma barren : Barren text := by
  refine ⟨?_, by rw [h.dropBlanks_eq]; exact h.unequal⟩
  rw [closeBracket?, h.dropBlanks_eq]
  split
  · exact absurd (h.head _ rfl) (by decide)
  · rfl

lemma splitIdentifier_eq : splitIdentifier text = ([], text) :=
  splitIdentifier_stop h.boundary.identifierUnit?_eq_none

lemma tail : Tail text := by
  refine ⟨h.boundary, h.of_head (by decide), ?_, h.barren, ?_, ?_⟩
  · rw [h.dropBlanks_eq]
    exact h.of_head (by decide)
  · intro name rest hname
    rw [h.dropBlanks_eq, identifier?_eq_none h.boundary.identifierUnit?_eq_none] at hname
    exact nomatch hname
  · rw [(afterBlank_of_solid fun c hc => (h.solid c hc).1).2, h.splitIdentifier_eq]
    exact h.barren

end Continues

/-- Whether a text has blanks, commas and signs of combinators only. -/
def IsGap (k : List Char) : Prop :=
  ∀ c ∈ k, isBlank c = true ∨ c ∈ [',', '>', '+', '~']

/-- Whether neither a name at the start of a text nor anything else there ends an attribute test. -/
structure Opens (text : List Char) : Prop where
  head : ∀ c ∈ text.head?, isBlank c = false ∧ c ∉ ['=', '\'', '"']
  barren : Barren text
  barren_name : Barren (splitIdentifier text).2

lemma Continues.opens (h : Continues text) : Opens text :=
  ⟨h.of_head (by decide), h.barren, by rw [h.splitIdentifier_eq]; exact h.barren⟩

lemma gap_char (hc : isBlank c = true ∨ c ∈ [',', '>', '+', '~']) :
    continuesIdentifier c = false ∧ c ∉ ['(', ')', '[', ']', '=', ':', '\'', '"', '\\'] := by
  obtain hblank | hsign := hc
  · constructor
    · cases hname : continuesIdentifier c with
      | false => rfl
      | true => cases (isBlank_of_continuesIdentifier hname).symm.trans hblank
    · intro hmem
      simp only [List.mem_cons, List.not_mem_nil, or_false] at hmem
      obtain rfl | rfl | rfl | rfl | rfl | rfl | rfl | rfl | rfl := hmem <;>
        exact absurd hblank (by decide)
  · simp only [List.mem_cons, List.not_mem_nil, or_false] at hsign
    obtain rfl | rfl | rfl | rfl := hsign <;> decide

namespace IsGap

lemma of_suffix (hk : IsGap k) {k' : List Char} (h : k' <:+ k) : IsGap k' := fun c hc =>
  hk c (h.mem hc)

/-- Behind its blanks a gap is at its end, or at a sign. -/
theorem dropBlanks_cons (hk : IsGap k) {more : List Char} (h : dropBlanks k = c :: more) :
    c ∈ [',', '>', '+', '~'] ∧ IsGap more := by
  have hsuffix : c :: more <:+ k := h ▸ dropBlanks_suffix k
  refine ⟨?_, hk.of_suffix ((List.suffix_cons _ _).trans hsuffix)⟩
  have hstop := List.head?_dropWhile_not isBlank k
  rw [show k.dropWhile isBlank = c :: more from h] at hstop
  obtain hblank | hsign := hk c (hsuffix.mem List.mem_cons_self)
  · rw [List.head?_cons] at hstop
    cases hstop.symm.trans hblank
  · exact hsign

lemma barren_append (hk : IsGap k) (hz : Opens z) : Barren (k ++ z) := by
  cases hdrop : dropBlanks k with
  | nil =>
    have hz' := hz.barren
    rw [Barren, closeBracket?] at hz' ⊢
    rwa [dropBlanks_append_of_nil hdrop]
  | cons c more =>
    obtain ⟨hsign, hmore⟩ := hk.dropBlanks_cons hdrop
    have hhead : ∀ d ∈ (more ++ z).head?, d ≠ '=' := by
      intro d hd heq
      cases more with
      | nil => exact (hz.head d hd).2 (by simp [heq])
      | cons e more =>
        obtain rfl : e = d := Option.some.inj hd
        exact (gap_char (hmore e List.mem_cons_self)).2 (by simp [heq])
    rw [Barren, closeBracket?, dropBlanks_append_of_cons hdrop, List.cons_append]
    simp only [List.mem_cons, List.not_mem_nil, or_false] at hsign
    obtain rfl | rfl | rfl | rfl := hsign
    · exact ⟨rfl, rfl⟩
    · exact ⟨rfl, rfl⟩
    · exact ⟨rfl, rfl⟩
    · refine ⟨rfl, ?_⟩
      cases heq : more ++ z with
      | nil => rfl
      | cons d rest =>
        have hd := hhead d (by rw [heq]; rfl)
        unfold attributeOperator?
        split <;> simp_all

lemma barren_name_append (hk : IsGap k) (hz : Opens z) :
    Barren (splitIdentifier (k ++ z)).2 := by
  cases k with
  | nil => exact hz.barren_name
  | cons c k =>
    rw [List.cons_append, splitIdentifier_stop (identifierUnit?_eq_none
      (gap_char (hk c List.mem_cons_self)).1), ← List.cons_append]
    exact hk.barren_append hz

lemma tail_append (hk : IsGap k) (hne : k ≠ []) (hz : Opens z) : Tail (k ++ z) := by
  obtain ⟨c, k, rfl⟩ := List.exists_cons_of_ne_nil hne
  obtain ⟨hname, hspecial⟩ := gap_char (hk c List.mem_cons_self)
  have hself : dropBlanks z = z := dropBlanks_eq_self fun d hd => (hz.head d hd).1
  simp only [List.mem_cons, List.not_mem_nil, or_false, not_or] at hspecial
  refine ⟨boundary_cons _ hname hspecial.1, ?_, ?_, hk.barren_append hz, ?_, ?_⟩
  · rintro d ⟨⟩
    simp [hspecial]
  · cases hdrop : dropBlanks (c :: k) with
    | nil =>
      rw [dropBlanks_append_of_nil hdrop, hself]
      intro d hd hquote
      exact (hz.head d hd).2 (List.mem_cons_of_mem _ hquote)
    | cons e more =>
      rw [dropBlanks_append_of_cons hdrop]
      rintro d ⟨⟩
      have hsign := (hk.dropBlanks_cons hdrop).1
      exact fun hquote => (gap_char (.inr hsign)).2 (by
        simp only [List.mem_cons, List.not_mem_nil, or_false] at hquote
        obtain rfl | rfl := hquote <;> decide)
  · intro name rest hfound
    cases hdrop : dropBlanks (c :: k) with
    | nil =>
      rw [dropBlanks_append_of_nil hdrop, hself] at hfound
      have hbarren := hz.barren_name
      rwa [identifier?_eq_some hfound] at hbarren
    | cons e more =>
      rw [dropBlanks_append_of_cons hdrop, List.cons_append] at hfound
      have hstop := (gap_char (.inr (hk.dropBlanks_cons hdrop).1)).1
      exact nomatch (continuesIdentifier_of_identifier? hfound).symm.trans hstop
  · rw [List.cons_append, afterBlank]
    split
    · exact (hk.of_suffix (List.suffix_cons _ _)).barren_name_append hz
    · exact hk.barren_name_append hz

end IsGap

end Continuations

section Patches

lemma IsGap.inert (hk : IsGap k) : Inert k := by
  refine Inert.of_forall fun c hc hmem => (gap_char (hk c hc)).2 ?_
  simp only [List.mem_cons, List.not_mem_nil, or_false] at hmem
  obtain rfl | rfl | rfl | rfl | rfl | rfl | rfl := hmem <;> decide

lemma Continues.patch (hy : Continues (p ++ y)) (hp : Inert p) (hclose : ')' ∉ p)
    (hline : y ≠ [] → ':' ∉ p ∧ '\n' ∉ p) : Patch False y p :=
  ⟨⟨hp, hy.tail, hclose, fun h => (hline h).1⟩, fun h => iff_of_false (hline h).2 id⟩

lemma IsGap.patch (hk : IsGap k) (hne : k ≠ []) (hz : Opens (z ++ y)) (hinert : Inert z)
    (hclose : ')' ∉ z) (hline : y ≠ [] → ':' ∉ z ∧ '\n' ∉ z) : Patch ('\n' ∈ k) y (k ++ z) := by
  have hgap : ∀ c ∈ ['(', ')', '[', ']', '=', ':', '\'', '"', '\\'], c ∉ k := fun c hc hmem =>
    (gap_char (hk c hmem)).2 hc
  refine ⟨⟨hk.inert.append hinert, ?_, ?_, fun hy => ?_⟩, fun hy => ?_⟩
  · rw [List.append_assoc]
    exact hk.tail_append hne hz
  · rw [List.mem_append, not_or]
    exact ⟨hgap _ (by decide), hclose⟩
  · rw [List.mem_append, not_or]
    exact ⟨hgap _ (by decide), (hline hy).1⟩
  · rw [List.mem_append, or_iff_left (hline hy).2]

lemma IsGap.piece (hk : IsGap k) (hne : k ≠ []) (hy : Opens y) : Piece y k := by
  have hpatch := hk.patch (z := []) hne hy .nil nofun fun _ => ⟨nofun, nofun⟩
  rw [List.append_nil] at hpatch
  exact hpatch.toPiece

lemma attributeOperator?_head {found : AttributeOperator × List Char}
    (h : attributeOperator? (c :: text) = some found) :
    c ∈ ['=', '!', '^', '$', '*', '~', '|'] := by
  unfold attributeOperator? at h
  split at h
  case h_8 => exact nomatch h
  all_goals
    rename_i heq
    rw [(List.cons.inj heq).1]
    decide

lemma opens_name (hname : identifier? (name ++ y) = some (name, y)) (hy : Continues y) :
    Opens (name ++ y) := by
  obtain ⟨c, name, rfl⟩ := List.exists_cons_of_ne_nil (identifier?_append hname).2
  have hc := continuesIdentifier_of_identifier? hname
  have hblank := isBlank_of_continuesIdentifier hc
  have hother : ∀ d, continuesIdentifier d = false → c ≠ d := by
    rintro d hd rfl
    cases hd.symm.trans hc
  have hdrop : dropBlanks (c :: name ++ y) = c :: name ++ y :=
    dropBlanks_eq_self (by rintro d ⟨⟩; exact hblank)
  refine ⟨?_, ⟨?_, ?_⟩, ?_⟩
  · rintro d ⟨⟩
    refine ⟨hblank, ?_⟩
    simp [hother '=' (by decide), hother '\'' (by decide), hother '"' (by decide)]
  · rw [closeBracket?, hdrop]
    split
    · rename_i heq
      exact absurd (List.cons.inj heq).1 (hother ']' (by decide))
    · rfl
  · rw [hdrop]
    cases hoperator : attributeOperator? (c :: name ++ y) with
    | none => rfl
    | some found =>
      have hhead := attributeOperator?_head hoperator
      simp only [List.mem_cons, List.not_mem_nil, or_false] at hhead
      obtain rfl | rfl | rfl | rfl | rfl | rfl | rfl := hhead <;> exact absurd hc (by decide)
  · rw [identifier?_eq_some hname]
    exact hy.barren

lemma isGap_of_dropBlanks_nil (h : dropBlanks k = []) : IsGap k := fun c hc =>
  .inl (List.dropWhile_eq_nil_iff.mp h c hc)

lemma isGap_of_dropBlanks_cons (h : dropBlanks k = c :: rest) (hc : c ∈ [',', '>', '+', '~'])
    (hrest : dropBlanks rest = []) : IsGap k := by
  obtain hk : k.takeWhile isBlank ++ dropBlanks k = k := List.takeWhile_append_dropWhile
  intro d hd
  rw [← hk, h] at hd
  obtain hd | hd := List.mem_append.mp hd
  · exact .inl (List.mem_takeWhile_imp hd)
  · obtain rfl | hd := List.mem_cons.mp hd
    · exact .inr hc
    · exact isGap_of_dropBlanks_nil hrest d hd

lemma mem_of_signOf? {k' : Combinator} (h : signOf? c = some k') : c ∈ [',', '>', '+', '~'] := by
  by_contra hc
  cases (signOf?_eq_none hc).symm.trans h

/-- The text of a combinator has blanks and signs only, and is read in front of any other test. -/
theorem next_combinator {k' : Combinator} (ht : Solid text)
    (h : (Lexeme.next afterToken (k ++ text)).item? = some (some (.combinator k'), text)) :
    IsGap k ∧ k ≠ [] ∧ ∀ t, Solid t →
      (Lexeme.next afterToken (k ++ t)).item? = some (some (.combinator k'), t) := by
  have hne : k ≠ [] := by
    obtain ⟨raw, htext, hraw, -⟩ := Lexeme.next_raw h
    rw [← List.nil_append text] at htext
    exact ne_nil_of_taken htext hraw
  cases hdrop : dropBlanks k with
  | nil =>
    refine ⟨isGap_of_dropBlanks_nil hdrop, hne, fun t ht' => ?_⟩
    rw [← List.nil_append text] at h
    exact next_blanks_swap hdrop hne (fun _ => .inr (.inl ⟨ht, ht'⟩)) h
  | cons c more =>
    have hcons : ∀ t, dropBlanks (k ++ t) = c :: (more ++ t) :=
      fun t => dropBlanks_append_of_cons hdrop
    have hlong : ∀ {rest : List Char}, rest = text → rest.length ≤ text.length := by
      rintro rest rfl
      exact Nat.le_refl _
    rw [next_of_cons (hcons _)] at h
    by_cases hcomma : afterToken = true ∧ c = ','
    · rw [if_pos hcomma] at h
      exact nomatch (Prod.mk.inj (Lexeme.separation_item? h)).1
    · rw [if_neg hcomma] at h
      cases hsign : signOf? c with
      | some k'' =>
        rw [hsign] at h
        obtain ⟨hvalue, hrest⟩ := Prod.mk.inj (Option.some.inj h)
        have hmore : dropBlanks more = [] := by
          cases hmore : dropBlanks more with
          | nil => rfl
          | cons d rest =>
            rw [dropBlanks_append_of_cons hmore] at hrest
            have hlength := hlong hrest
            rw [List.length_append, List.length_cons] at hlength
            omega
        refine ⟨isGap_of_dropBlanks_cons hdrop (mem_of_signOf? hsign) hmore, hne, fun t ht' => ?_⟩
        rw [next_of_cons (hcons _), if_neg hcomma, hsign, dropBlanks_append_of_nil hmore,
          dropBlanks_eq_self fun d hd => (ht' d hd).1]
        exact congrArg (fun value => some (value, t)) hvalue
      | none =>
        rw [hsign] at h
        dsimp only at h
        split at h
        · have hlength := hlong (Prod.mk.inj (Option.some.inj h)).2
          simp only [List.length_cons, List.length_append] at hlength
          omega
        · obtain ⟨value, heq, hstart⟩ := simpleTest_start h
          obtain rfl := Option.some.inj heq
          exact nomatch hstart

end Patches

section Scans

/-- A scan that has read a text to its end as one clause. -/
def Scan.whole (ts : Clause) : Scan := ⟨ts, [], [], none⟩

lemma Scan.eq_whole_of_prepend {s : Scan} (h : s.prepend ts = .whole (ts ++ us)) :
    s = .whole us := by
  obtain ⟨first, later, rest, fault⟩ := s
  simp only [Scan.prepend, Scan.whole, Scan.mk.injEq] at h
  obtain ⟨hfirst, rfl, rfl, rfl⟩ := h
  rw [List.append_cancel_left hfirst]
  rfl

lemma scan_nil (afterToken : Bool) : scan afterToken [] = .whole [] := by
  rw [Written.scan_eq]
  cases afterToken <;> rfl

end Scans

end TreeQuery
