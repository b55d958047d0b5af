import Mathlib.Data.List.TakeWhile
import TreeQuery.Proofs.Selector.Written.Places

/-!
# Arguments that are written and read

An argument in quotes and one without special characters end where they were written to end. The
text of a group is either passed over up to the parenthesis behind it, or it is taken up to the last
parenthesis of the line, and the scan finds where the group ends.
-/

namespace TreeQuery

namespace Written

variable {last : Bool} {rest : List Char}

lemma quotedBody?_quotable {quote : Char} (hquote : quote ≠ '\\') {body : List Char}
    (h : quotable quote body = true) (rest : List Char) :
    quotedBody? quote (body ++ quote :: rest) = some (body, rest) := by
  fun_induction quotable quote body with
  | case1 =>
    rw [List.nil_append, quotedBody?, if_pos rfl]
    · exact fun h _ => hquote h
    · exact fun _ _ h _ => hquote h
  | case2 => cases h
  | case3 c body ih =>
    obtain ⟨hc, hbody⟩ := Bool.and_eq_true_iff.mp h
    rw [List.cons_append, List.cons_append, quotedBody?, if_neg (by simpa using hc), ih hbody]
    rfl
  | case4 c body hend hslash ih =>
    simp only [Bool.and_eq_true, bne_iff_ne] at h
    obtain ⟨⟨hc, -⟩, hbody⟩ := h
    have hne : c ≠ '\\' := by
      rintro rfl
      cases body with
      | nil => exact hend rfl rfl
      | cons d body => exact hslash d body rfl rfl
    rw [List.cons_append, quotedBody?, if_neg hc, ih hbody]
    · rfl
    · exact fun h _ => hne h
    · exact fun _ _ h _ => hne h

lemma splitLastParenthesis?_prepend {text inner after : List Char}
    (h : splitLastParenthesis? text = some (inner, after)) (p : List Char) :
    splitLastParenthesis? (p ++ text) = some (p ++ inner, after) := by
  induction p with
  | nil => exact h
  | cons c p ih => rw [List.cons_append, splitLastParenthesis?, ih]; rfl

/-- What may stand behind a group: nothing, or a parenthesis that closes it. -/
def Ending (tail : List Char) : Prop := tail = [] ∨ ∃ more, tail = ')' :: more

lemma Ending.boundary {tail : List Char} (h : Ending tail) : Boundary tail := by
  obtain rfl | ⟨more, rfl⟩ := h
  · exact boundary_nil
  · exact boundary_cons more (by decide) (by decide)

/-- The last parenthesis is the one behind a text or one further behind. -/
theorem splitLastParenthesis?_close (text rest : List Char) : ∃ tail after,
    splitLastParenthesis? (text ++ ')' :: rest) = some (text ++ tail, after) ∧ Ending tail ∧
      (tail ++ ')' :: after).tail = rest := by
  cases hrest : splitLastParenthesis? rest with
  | none =>
    have hclose : splitLastParenthesis? (')' :: rest) = some ([], rest) := by
      rw [splitLastParenthesis?, hrest]
      rfl
    exact ⟨[], rest, splitLastParenthesis?_prepend hclose text, .inl rfl, rfl⟩
  | some found =>
    obtain ⟨inner, after⟩ := found
    have hclose : splitLastParenthesis? (')' :: rest) = some (')' :: inner, after) := by
      rw [splitLastParenthesis?, hrest]
    exact ⟨')' :: inner, after, splitLastParenthesis?_prepend hclose text, .inr ⟨inner, rfl⟩,
      (splitLastParenthesis?_append hrest).symm⟩

lemma quotedArgument?_eq_none {c : Char} {text : List Char} (hsingle : c ≠ '\'')
    (hdouble : c ≠ '"') : quotedArgument? (c :: text) = none := by
  unfold quotedArgument?
  dsimp only
  split
  · rename_i heq
    split at heq
    · rename_i hc
      exact absurd (List.cons.inj hc).1 hsingle
    · rename_i hc
      exact absurd (List.cons.inj hc).1 hdouble
    · exact nomatch heq
  · rfl

/-- What is read of the argument that is written for a group. -/
theorem splitArgument_group {c : Char} {text : List Char} (hsingle : c ≠ '\'') (hdouble : c ≠ '"')
    (hpassable : Passable (c :: text)) (hbreak : '\n' ∉ c :: text) (hrest : '\n' ∉ rest) :
    splitArgument ('(' :: c :: text ++ ')' :: rest) = (.plain (c :: text), rest) ∨
      ∃ tail after, splitArgument ('(' :: c :: text ++ ')' :: rest) =
          (.line (c :: text ++ tail), after) ∧
        mentionsPseudo (c :: text ++ tail) = true ∧ Ending tail ∧ '\n' ∉ tail ∧
        (tail ++ ')' :: after).tail = rest := by
  have hquoted : quotedArgument? (c :: text ++ ')' :: rest) = none :=
    quotedArgument?_eq_none hsingle hdouble
  obtain hpasses | hopens := hpassable
  · have hplain : plainArgument? (c :: text ++ ')' :: rest) = some (.plain (c :: text), rest) := by
      rw [plainArgument?, hpasses, splitPlain_parenthesis (.inr rfl), List.append_nil]
      rfl
    refine .inl ?_
    rw [List.cons_append, splitArgument, hquoted, hplain]
    rfl
  · obtain ⟨⟨plain, after, hsplit⟩, -⟩ := hopens (')' :: rest)
    have hplain : plainArgument? (c :: text ++ ')' :: rest) = none := by
      rw [plainArgument?, hsplit]
      rfl
    obtain ⟨tail, after, hlast, hending, htail⟩ := splitLastParenthesis?_close (c :: text) rest
    have hline : '\n' ∉ c :: text ++ ')' :: rest := by
      simp only [List.mem_append, List.mem_cons, not_or] at hbreak hrest ⊢
      exact ⟨hbreak, by decide, hrest⟩
    have htake : (c :: text ++ ')' :: rest).takeWhile (· != '\n') = c :: text ++ ')' :: rest :=
      List.takeWhile_eq_self_iff.mpr fun d hd => by
        simpa using fun heq : d = '\n' => hline (heq ▸ hd)
    have hdrop : (c :: text ++ ')' :: rest).dropWhile (· != '\n') = [] :=
      List.dropWhile_eq_nil_iff.mpr fun d hd => by
        simpa using fun heq : d = '\n' => hline (heq ▸ hd)
    have htailbreak : '\n' ∉ tail := by
      have happ := splitLastParenthesis?_append hlast
      intro hmem
      exact hline (happ ▸ List.mem_append_left _ (List.mem_append_right _ hmem))
    refine .inr ⟨tail, after, ?_, (hopens tail).2, hending, htailbreak, htail⟩
    rw [List.cons_append, splitArgument, hquoted, hplain, lineArgument?, htake, hdrop, hlast]
    simp

lemma toLower_ofList {chars : List Char} (h : ∀ c ∈ chars, c.toLower = c) :
    (String.ofList chars).toLower = String.ofList chars := by
  change (String.ofList chars).map Char.toLower = String.ofList chars
  rw [← String.toList_inj, String.toList_map, String.toList_ofList,
    List.map_congr_left h, List.map_id']

/-- What a pseudo-class with an argument is read as. -/
def readPseudo (name : PseudoName) (last : Bool) : Argument × List Char → Lexeme
  | (.absent, rest) => .token (.pseudo ⟨String.ofList name.chars, none, false⟩) rest
  | (.quoted body, rest) =>
    .token (.pseudo ⟨String.ofList name.chars, some (String.ofList body), true⟩) rest
  | (.plain text, rest) =>
    .token (.pseudo ⟨String.ofList name.chars, some (String.ofList text), false⟩) rest
  | (.line text, rest) =>
    if mentionsPseudo text then
      .nested (String.ofList name.chars) (':' :: spell last name.chars ++ ['(']) text rest
    else .token (.pseudo ⟨String.ofList name.chars, some (String.ofList text), false⟩) rest

lemma simpleTest_pseudo (name : PseudoName) {after : List Char}
    (hlast : last = true → after = [])
    (hafter : ∀ c ∈ after.head?, continuesIdentifier c = false) :
    simpleTest (':' :: spell last name.chars ++ after) =
      readPseudo name last (splitArgument after) := by
  have hstop : identifierUnit? after = none := by
    cases after with
    | nil => rfl
    | cons c after => exact identifierUnit?_eq_none (hafter c rfl)
  have hname := identifier?_spell name.noNul name.nonempty hlast hstop
  have hunescape : unescape (spell last name.chars) = name.chars := unescape_spell name.noNul
  have hstructural : structural? (':' :: (spell last name.chars ++ after)) = none :=
    structural?_pseudoName name hafter
  rw [List.cons_append, simpleTest, if_neg (by decide), if_neg (by decide), if_neg (by decide),
    if_neg (by decide), if_pos rfl, hstructural]
  simp only [pseudo?, hname, hunescape, toLower_ofList name.lower, Option.bind_eq_bind,
    Option.bind_some]
  obtain ⟨argument, rest⟩ := splitArgument after
  cases argument with
  | absent => rfl
  | quoted body => rfl
  | plain text => rfl
  | line text =>
    rw [readPseudo]
    dsimp only
    split <;> rfl

lemma splitArgument_quoted (q : Quoted) (rest : List Char) :
    splitArgument ('(' :: q.text ++ ')' :: rest) = (.quoted q.body, rest) := by
  obtain ⟨quote, body, hquote, hbody⟩ := q
  have hread : quotedArgument? (Quoted.text ⟨quote, body, hquote, hbody⟩ ++ ')' :: rest) =
      some (.quoted body, rest) := by
    obtain rfl | rfl := hquote
    · have hbody := quotedBody?_quotable (by decide) hbody (')' :: rest)
      simp [quotedArgument?, Quoted.text, hbody]
    · have hbody := quotedBody?_quotable (by decide) hbody (')' :: rest)
      simp [quotedArgument?, Quoted.text, hbody]
  rw [List.cons_append, splitArgument, hread]
  rfl

lemma splitArgument_bare (t : Bare) (rest : List Char) :
    splitArgument ('(' :: t.chars ++ ')' :: rest) = (.plain t.chars, rest) := by
  have hquoted : quotedArgument? (t.chars ++ ')' :: rest) = none := by
    cases hchars : t.chars with
    | nil => exact quotedArgument?_eq_none (by decide) (by decide)
    | cons c chars =>
      have hc := t.bare c (by simp [hchars])
      simp only [special, List.mem_cons, not_or] at hc
      exact quotedArgument?_eq_none hc.1 hc.2.1
  have hplain : plainArgument? (t.chars ++ ')' :: rest) = some (.plain t.chars, rest) := by
    have hpasses : Passes t.chars := (harmless_of_ordinary t.bare).passes
    rw [plainArgument?, hpasses, splitPlain_parenthesis (.inr rfl), List.append_nil]
    rfl
  rw [List.cons_append, splitArgument, hquoted, hplain]
  rfl

lemma Boundary.splitArgument_eq (hrest : Boundary rest) :
    splitArgument rest = (.absent, rest) := by
  unfold splitArgument
  split
  · exact absurd rfl (hrest '(' rfl).2
  · rfl

/-- A pseudo-class whose argument is no group is read at once. -/
theorem simpleTest_pseudo_simple (name : PseudoName) {argument : Inner}
    (hgroup : ∀ g, argument ≠ .group g) (hlast : last = true → rest = []) (hrest : Boundary rest) :
    simpleTest (Filter.text last (.pseudo name argument) ++ rest) =
      .token (Filter.value (.pseudo name argument)) rest := by
  have hopen : ∀ text : List Char, ∀ c ∈ ('(' :: text).head?, continuesIdentifier c = false := by
    rintro text c ⟨⟩
    decide
  cases argument with
  | absent =>
    have hread := simpleTest_pseudo name hlast fun c hc => (hrest c hc).1
    rw [hrest.splitArgument_eq] at hread
    simpa [Filter.text, Inner.text, Inner.isAbsent, readPseudo, Filter.value, Inner.argument?,
      Inner.isQuoted] using hread
  | quoted q =>
    have hread : simpleTest (':' :: spell false name.chars ++ ('(' :: q.text ++ ')' :: rest)) =
        readPseudo name false (splitArgument ('(' :: q.text ++ ')' :: rest)) :=
      simpleTest_pseudo name nofun (hopen _)
    rw [splitArgument_quoted] at hread
    simpa [Filter.text, Inner.text, Inner.isAbsent, readPseudo, Filter.value, Inner.argument?,
      Inner.isQuoted] using hread
  | bare t =>
    have hread : simpleTest (':' :: spell false name.chars ++ ('(' :: t.chars ++ ')' :: rest)) =
        readPseudo name false (splitArgument ('(' :: t.chars ++ ')' :: rest)) :=
      simpleTest_pseudo name nofun (hopen _)
    rw [splitArgument_bare] at hread
    simpa [Filter.text, Inner.text, Inner.isAbsent, readPseudo, Filter.value, Inner.argument?,
      Inner.isQuoted] using hread
  | group g => exact absurd rfl (hgroup g)

end Written

end TreeQuery
