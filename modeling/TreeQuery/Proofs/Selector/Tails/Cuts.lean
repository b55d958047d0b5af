import TreeQuery.Proofs.Selector.Tails.Crossings
import TreeQuery.Proofs.Selector.Tails.Seeds
import TreeQuery.Proofs.Engine.SeedPlans

/-!
# What is left of a clause

Without the token that is looked up, the text of a clause is read as the tokens that are left. This
needs that the token has no closing parenthesis, that the line and the colons in front of the tokens
behind it stay what they were, and that no name is cut off from what stands in front of it.
-/

namespace TreeQuery

open Written

variable {broken : Prop} {afterToken : Bool} {p q text : List Char} {ts us more left : Clause}
  {t k : Token}

section Wholes

lemma eq_nil_of_scan (h : scan afterToken text = .whole []) : text = [] := by
  cases hitem : (Lexeme.next afterToken text).item? with
  | none =>
    have hrest := (scan_of_none hitem).2
    rw [h] at hrest
    exact hrest.symm
  | some found =>
    obtain ⟨item, rest⟩ := found
    cases item with
    | none =>
      rw [scan_of_comma hitem] at h
      exact nomatch congrArg Scan.later h
    | some value =>
      rw [scan_of_token hitem] at h
      exact nomatch congrArg Scan.first h

/-- A text that is read to its end is the text of its tokens; its parts are read on their own. -/
theorem scan_whole_split (h : scan afterToken text = .whole (ts ++ us)) :
    text = ts.chars ++ us.chars ∧ Settled ts.chars ∧
      scan (afterToken || !ts.isEmpty) us.chars = .whole us := by
  have hsplit : ∀ {afterToken : Bool} {text : List Char} {ts us : Clause},
      scan afterToken text = .whole (ts ++ us) → ∃ rest, text = ts.chars ++ rest ∧
        Settled ts.chars ∧ scan (afterToken || !ts.isEmpty) rest = .whole us := by
    intro afterToken text ts us h
    have hfirst : (scan afterToken text).first = ts ++ us := by
      rw [h]
      rfl
    obtain ⟨rest, htext, hsettled, hscan⟩ := scan_split hfirst
    exact ⟨rest, htext, hsettled, Scan.eq_whole_of_prepend (hscan.symm.trans h)⟩
  obtain ⟨rest, rfl, hsettled, hscan⟩ := hsplit h
  rw [← List.append_nil us] at hscan
  obtain ⟨rest', rfl, -, hrest⟩ := hsplit hscan
  obtain rfl := eq_nil_of_scan hrest
  rw [List.append_nil] at hscan ⊢
  rw [List.append_nil] at hscan
  exact ⟨rfl, hsettled, hscan⟩

lemma scan_whole_cons (h : scan afterToken text = .whole (t :: us)) :
    (Lexeme.next afterToken text).item? = some (some t.value, us.chars) ∧
      text = t.raw.toList ++ us.chars ∧ scan true us.chars = .whole us := by
  obtain ⟨rest, hitem, rfl, hscan, -⟩ := scan_first (by rw [h]; rfl)
  have hprepend : (scan true rest).prepend [t] = .whole ([t] ++ us) := by
    rw [← Scan.cons_prepend, Scan.prepend_nil, ← hscan, h]
    rfl
  have hrest : scan true rest = .whole us := Scan.eq_whole_of_prepend hprepend
  have hwhole : scan true rest = .whole (us ++ []) := by rwa [List.append_nil]
  have htext := (scan_whole_split hwhole).1
  rw [Clause.chars_nil, List.append_nil] at htext
  subst htext
  exact ⟨hitem, rfl, hrest⟩

lemma Token.value_ne_combinator (h : t.isCombinator = false) (k : Combinator) :
    t.value ≠ .combinator k := by
  intro hvalue
  rw [Token.isCombinator, Token.combinator?, hvalue] at h
  exact nomatch h

/-- Tokens that start with a simple test are read as the same behind a token and elsewhere. -/
theorem scan_whole_any (h : scan true us.chars = .whole us) (hus : ∀ u ∈ us, u.isCombinator = false)
    (afterToken : Bool) : scan afterToken us.chars = .whole us := by
  cases us with
  | nil => exact scan_nil afterToken
  | cons u us =>
    obtain ⟨hitem, -, -⟩ := scan_whole_cons h
    have hnext := (next_test hitem (Token.value_ne_combinator (hus u List.mem_cons_self))).2.2
    rw [← h, Written.scan_eq, Written.scan_eq, hnext afterToken, hnext true]

lemma scan_universal (afterToken : Bool) :
    scan afterToken ['*'] = .whole [.universal] := by
  have hitem : (Lexeme.next afterToken ['*']).item? = some (some (.tag "*"), []) := by
    rw [next_eq_simpleTest (by decide) (by decide)]
    rfl
  rw [scan_of_token hitem, scan_nil]
  rfl

lemma scan_equals (rest : List Char) : (scan true ('=' :: rest)).rest = '=' :: rest := by
  have hitem : (Lexeme.next true ('=' :: rest)).item? = none := by
    rw [next_eq_simpleTest (by decide) (by decide), simpleTest_other (by decide), namedLexeme,
      identifier?_eq_none (identifierUnit?_eq_none (by decide))]
    rfl
  exact (scan_of_none hitem).2

/-- Where no name goes on, tokens without a combinator start with a simple test that is no name. -/
theorem continues_of_scan (h : scan true us.chars = .whole us)
    (hus : ∀ u ∈ us, u.isCombinator = false) (hname : identifierUnit? us.chars = none) :
    Continues us.chars := by
  cases us with
  | nil => exact .nil
  | cons u us =>
    obtain ⟨hitem, htext, hrest⟩ := scan_whole_cons h
    obtain ⟨-, hstart, -⟩ := next_test hitem (Token.value_ne_combinator (hus u List.mem_cons_self))
    generalize Clause.chars (u :: us) = text at hname hstart
    generalize u.value = value at hstart
    cases hstart with
    | star =>
      refine ⟨by rintro c ⟨⟩; decide, ?_⟩
      cases hchars : Clause.chars us with
      | nil => rfl
      | cons c more =>
        by_cases hc : c = '='
        · subst hc
          have hstop := scan_equals more
          rw [← hchars, hrest] at hstop
          exact nomatch hstop.trans hchars
        · unfold attributeOperator?
          split <;> simp_all
    | id => exact .cons (by decide) _
    | className => exact .cons (by decide) _
    | bracket => exact .cons (by decide) _
    | structural => exact .cons (by decide) _
    | pseudo => exact .cons (by decide) _
    | tag hread => exact nomatch (identifier?_eq_none hname).symm.trans hread

end Wholes

section Cuts

/-- Tokens in front of a patch and what is read behind them make a whole. -/
theorem scan_replace (hsettled : Settled ts.chars) (hp : Patch broken us.chars p)
    (hq : Patch broken us.chars q) (hne : p ≠ []) (halike : Alike (p ++ us.chars) (q ++ us.chars))
    (hfirst : (scan false (ts.chars ++ (p ++ us.chars))).first = ts ++ more)
    (hleft : scan (!ts.isEmpty) (q ++ us.chars) = .whole left) :
    scan false (ts.chars ++ (q ++ us.chars)) = .whole (ts ++ left) := by
  have hfirst' : (scan false (ts.chars ++ [] ++ (p ++ us.chars))).first = ts ++ more := by
    rwa [List.append_nil]
  have hsettled' : Settled (ts.chars ++ []) := by rwa [List.append_nil]
  have hhead : ∀ c ∈ ([] : List Char).head?, c ≠ '(' := nofun
  have hscan := scan_swap hsettled' hp hq (by simpa) hhead (fun _ => halike) hfirst'
  rw [List.append_nil, List.nil_append, Bool.false_or, hleft] at hscan
  exact hscan

/-- Without an id or a class the tokens around it are read as they were. -/
theorem scan_without_filter (h : scan false text = .whole (ts ++ t :: us))
    (hus : ∀ u ∈ us, u.isCombinator = false)
    (ht : (∃ name, t.value = .id name) ∨ ∃ name, t.value = .className name)
    (hclose : ')' ∉ t.raw.toList) (hline : us ≠ [] → ':' ∉ t.raw.toList ∧ '\n' ∉ t.raw.toList) :
    scan false (Clause.chars (ts ++ us)) = .whole (ts ++ us) ∧
      (us = [] → scan false (Clause.chars (ts ++ [Token.universal])) =
        .whole (ts ++ [Token.universal])) := by
  obtain ⟨rfl, hsettled, hscan⟩ := scan_whole_split h
  obtain ⟨hitem, htext, hrest⟩ := scan_whole_cons hscan
  have hvalue : ∀ k, t.value ≠ .combinator k := by
    rintro k hk
    obtain ⟨name, hname⟩ | ⟨name, hname⟩ := ht <;> exact nomatch hk.symm.trans hname
  obtain ⟨-, hstart, -⟩ := next_test hitem hvalue
  obtain ⟨c, hc, name, hread, hname⟩ := hstart.filter ht
  have hraw : t.raw.toList = c :: name := List.append_cancel_right (htext.symm.trans hread)
  have hstop := identifierUnit?_of_splitIdentifier (name ++ us.chars)
  rw [identifier?_eq_some hname] at hstop
  have hy : Continues us.chars := continues_of_scan hrest hus hstop
  have hmark : c ∈ ['#', '.', '[', ':'] := List.mem_append_left ['[', ':'] hc
  have hseed : Continues (t.raw.toList ++ us.chars) := by
    rw [hraw]
    exact .cons hmark _
  have hinert : Inert t.raw.toList := by
    rw [hraw]
    refine .ordinary ?_ (identifier?_inert hname)
    simp only [List.mem_cons, List.not_mem_nil, or_false] at hc
    obtain rfl | rfl := hc <;> decide
  have hp : Patch False us.chars t.raw.toList := hseed.patch hinert hclose fun hne =>
    hline (by rintro rfl; exact hne rfl)
  have hnil : Patch False us.chars [] := Continues.patch hy .nil nofun fun _ => ⟨nofun, nofun⟩
  have hne : t.raw.toList ≠ [] := by simp [hraw]
  have hfirst : (scan false (ts.chars ++ (t.raw.toList ++ us.chars))).first = ts ++ t :: us := by
    rw [← Clause.chars_cons, h]
    rfl
  constructor
  · rw [Clause.chars_append]
    exact scan_replace hsettled hp hnil hne (.inr (.inl ⟨hseed.solid, hy.solid⟩)) hfirst
      (scan_whole_any hrest hus _)
  · rintro rfl
    have hstar : Continues ['*'] := ⟨by rintro d ⟨⟩; decide, rfl⟩
    have hq : Patch False (Clause.chars []) ['*'] :=
      Continues.patch hstar (.ordinary (by decide) .nil) (by decide) fun hne => absurd rfl hne
    rw [Clause.chars_append]
    exact scan_replace hsettled hp hq hne (.inr (.inl ⟨hseed.solid, hstar.solid⟩)) hfirst
      (scan_universal _)

/-- Without a tag at the start of a compound the tokens around it are read as they were. -/
theorem scan_without_tag (h : scan false text = .whole (ts ++ k :: t :: us))
    (hus : ∀ u ∈ us, u.isCombinator = false) {sign : Combinator} (hk : k.value = .combinator sign)
    {tag : String} (ht : t.value = .tag tag) (hstar : tag ≠ "*") (hclose : ')' ∉ t.raw.toList)
    (hline : us ≠ [] → ':' ∉ t.raw.toList ∧ '\n' ∉ t.raw.toList) :
    scan false (Clause.chars (ts ++ k :: us)) = .whole (ts ++ k :: us) ∧
      (us = [] → scan false (Clause.chars (ts ++ [k, Token.universal])) =
        .whole (ts ++ [k, Token.universal])) := by
  obtain ⟨rfl, hsettled, hscan⟩ := scan_whole_split h
  obtain ⟨hsign, -, hscan'⟩ := scan_whole_cons hscan
  obtain ⟨hitem, htext, hrest⟩ := scan_whole_cons hscan'
  have hvalue : ∀ k, t.value ≠ .combinator k := by
    rintro k hk
    exact nomatch hk.symm.trans ht
  obtain ⟨hsolid, hstart, -⟩ := next_test hitem hvalue
  obtain ⟨name, hread, hname⟩ := hstart.tagName ht hstar
  have hraw : t.raw.toList = name := List.append_cancel_right (htext.symm.trans hread)
  subst hraw
  have hstop := identifierUnit?_of_splitIdentifier (t.raw.toList ++ us.chars)
  rw [identifier?_eq_some hname] at hstop
  have hy : Continues us.chars := continues_of_scan hrest hus hstop
  rw [Clause.chars_cons k, hk] at hsign
  obtain ⟨hgap, hne, hswap⟩ := next_combinator hsolid hsign
  have hline' : us.chars ≠ [] → ':' ∉ t.raw.toList ∧ '\n' ∉ t.raw.toList := fun hne =>
    hline (by rintro rfl; exact hne rfl)
  have hp := hgap.patch hne (opens_name hname hy) (identifier?_inert hname) hclose hline'
  have hp' : k.raw.toList ++ t.raw.toList ≠ [] := by simp [hne]
  have hfirst : (scan false (ts.chars ++ (k.raw.toList ++ t.raw.toList ++ us.chars))).first =
      ts ++ k :: t :: us := by
    rw [List.append_assoc, ← Clause.chars_cons, ← Clause.chars_cons, h]
    rfl
  have halike : ∀ z : List Char, Alike (k.raw.toList ++ t.raw.toList ++ us.chars)
      (k.raw.toList ++ z ++ us.chars) := by
    intro z
    obtain ⟨c, gap, heq⟩ := List.exists_cons_of_ne_nil hne
    rw [heq]
    exact .inl rfl
  -- The combinator is read as before in front of whatever is left.
  have hleft : ∀ left : Clause, Solid left.chars → scan true left.chars = .whole left →
      scan (!ts.isEmpty) (k.raw.toList ++ left.chars) = .whole (k :: left) := by
    intro left hsolid hleft
    have hread := scan_of_token (hswap _ hsolid)
    rw [before_append_left, String.ofList_toList, hleft, ← hk] at hread
    exact hread
  constructor
  · have hq := hgap.patch hne (z := []) hy.opens .nil nofun fun _ => ⟨nofun, nofun⟩
    have hscan := scan_replace hsettled hp hq hp' (halike []) hfirst
      (by rw [List.append_nil]; exact hleft us hy.solid hrest)
    rwa [List.append_nil, ← Clause.chars_cons, ← Clause.chars_append] at hscan
  · rintro rfl
    have hstar : Continues ['*'] := ⟨by rintro d ⟨⟩; decide, rfl⟩
    have hq := hgap.patch hne (z := ['*']) (y := Clause.chars []) hstar.opens
      (.ordinary (by decide) .nil) (by decide) fun hne => absurd rfl hne
    have hstarred : scan (!ts.isEmpty) (k.raw.toList ++ ['*'] ++ Clause.chars []) =
        .whole [k, .universal] := by
      rw [Clause.chars_nil, List.append_nil]
      exact hleft [.universal] hstar.solid (scan_universal _)
    have hscan := scan_replace hsettled hp hq hp' (halike ['*']) hfirst hstarred
    rw [Clause.chars_nil, List.append_nil] at hscan
    rw [Clause.chars_append, Clause.chars_cons]
    exact hscan

end Cuts

end TreeQuery
