import TreeQuery.Proofs.Selector.Arguments
import TreeQuery.Proofs.Selector.Tails.Scans

/-!
# Crossing a text

A scan crosses the front of a text item by item. The same items are crossed whatever stands behind
them, if the line goes on as before or no argument among them has nested parentheses.
-/

namespace TreeQuery

open Written

variable {broken : Prop} {a b c : Bool} {x x' y z p q t t' text : List Char}
  {item : Option TokenValue} {items items' : List (Option Token)}

/-- Whether the argument of a pseudo-class, where it has one without quotes, is read without nested
parentheses. -/
def TokenValue.Unnested (value : TokenValue) : Prop :=
  ∀ call, value = .pseudo call → call.quoted = false → ∀ argument, call.argument = some argument →
    (splitPlain argument.toList).2 = []

section Calls

lemma splitArgument_of_plain {plain rest : List Char}
    (h : splitPlain text = (plain, ')' :: rest)) (inner after : List Char) :
    splitArgument ('(' :: text) ≠ (.line inner, after) := by
  intro hline
  have hplain : plainArgument? text = some (.plain plain, rest) := by
    rw [plainArgument?, h]
    rfl
  have heq : splitArgument ('(' :: text) =
      (((quotedArgument? text).or (plainArgument? text)).or (lineArgument? text)).getD
        (.absent, '(' :: text) := rfl
  rw [heq, hplain] at hline
  cases hquoted : quotedArgument? text with
  | none =>
    rw [hquoted] at hline
    cases hline
  | some found =>
    obtain ⟨⟨body, hbody⟩, -⟩ := quotedArgument?_splits hquoted
    rw [hquoted] at hline
    obtain ⟨argument, rest'⟩ := found
    subst hbody
    cases hline

/-- An argument that is taken to the last parenthesis of the line has nested parentheses, also where
it is cut. -/
theorem not_unnested_of_line {spelled inner after rest : List Char} {value : TokenValue}
    (h : splitArgument text = (.line inner, after))
    (hitem : (callLexeme spelled (.line inner, after)).item? = some (some value, rest)) :
    ¬value.Unnested := by
  intro hvalue
  have htext : text = '(' :: inner ++ ')' :: after := by
    have hsplits := (splitArgument_splits text).2 inner (by rw [h])
    rwa [h] at hsplits
  have hpassed : ∀ {argument rest : List Char}, inner ++ ')' :: after = argument ++ ')' :: rest →
      (splitPlain argument).2 ≠ [] := by
    intro argument rest' heq hplain
    have hsplit : splitPlain (inner ++ ')' :: after) = (argument, ')' :: rest') := by
      rw [heq, passes_of_splitPlain hplain, splitPlain_parenthesis (.inr rfl), List.append_nil]
    refine splitArgument_of_plain hsplit inner after ?_
    rw [← List.cons_append, ← htext, h]
  rw [callLexeme] at hitem
  split at hitem
  · obtain ⟨hcall, -⟩ := Prod.mk.inj (Option.some.inj hitem)
    obtain rfl := Option.some.inj hcall
    have hplain := hvalue _ rfl rfl _ rfl
    rw [String.toList_ofList] at hplain
    exact hpassed (splitUnread_front _ _ _) hplain
  · obtain ⟨hcall, -⟩ := Prod.mk.inj (Option.some.inj hitem)
    obtain rfl := Option.some.inj hcall
    have hplain := hvalue _ rfl rfl _ rfl
    rw [String.toList_ofList] at hplain
    exact hpassed rfl hplain

lemma callsAlike_of_unnested (hp : Piece y p) (hq : Piece y q) (hne : x' ++ p ≠ [])
    (hopen : ∀ d ∈ x'.head?, d ≠ '(') (hitem : ∀ value, item = some value → value.Unnested) :
    CallsAlike x x' (p ++ y) (q ++ y) item := by
  intro spelled rest hsuffix hrest h
  have hp' : Patch ('\n' ∈ p) y p := ⟨hp, fun _ => Iff.rfl⟩
  have hline : ∀ {inner after}, splitArgument (rest ++ (p ++ y)) ≠ (.line inner, after) := by
    intro inner after hline
    rw [hline] at h
    cases item with
    | none =>
      rw [callLexeme] at h
      split at h <;> cases h
    | some value => exact not_unnested_of_line hline h (hitem value rfl)
  obtain habsent | ⟨argument, front, after, -, hclosed⟩ | ⟨inner, front, after, -, hwithin⟩ |
    ⟨after, hafter, hsome⟩ | ⟨a, b, after, rfl, rfl, hlast⟩ := argumentReading hrest ('\n' ∈ p) y
  · rw [habsent p hp'] at h
    obtain ⟨rfl, heq⟩ := Prod.mk.inj (Option.some.inj h)
    obtain rfl := List.append_cancel_right heq
    have hunopened : ∀ d ∈ (rest ++ (q ++ y)).head?, d ≠ '(' := by
      cases rest with
      | nil => exact fun d hd => (hq.tail.boundary d hd).2
      | cons e rest => exact fun d hd => hopen d hd
    rw [splitArgument_of_unopened hunopened]
    rfl
  · rw [hclosed p hp] at h
    rw [hclosed q hq]
    exact callLexeme_copy h
  · exact absurd (hwithin p hp') hline
  · obtain ⟨argument, hargument, hother⟩ := hsome p hp
    rw [hargument] at h
    exact absurd (callLexeme_rest hother h) (ne_of_suffix hafter hne)
  · exact absurd (hlast p hp') hline

end Calls

/-- The items that a scan takes in front of a tail, and whether the last of them is a token. -/
inductive Crosses : Bool → List Char → List Char → List (Option Token) → Bool → Prop
  | done (a : Bool) (t : List Char) : Crosses a [] t [] a
  | item {a b : Bool} {raw x t : List Char} {item : Option TokenValue}
      {items : List (Option Token)} :
    (Lexeme.next a (raw ++ (x ++ t))).item? = some (item, x ++ t) →
      Crosses item.isSome x t items b →
        Crosses a (raw ++ x) t (item.map (Token.mk (String.ofList raw)) :: items) b

/-- A scan with items in front. -/
def Scan.after (items : List (Option Token)) (s : Scan) : Scan :=
  items.foldr (fun item s => item.elim s.separated s.cons) s

lemma Scan.after_append (items items' : List (Option Token)) (s : Scan) :
    s.after (items ++ items') = (s.after items').after items :=
  List.foldr_append

namespace Crosses

lemma scan (h : Crosses a x t items b) :
    TreeQuery.scan a (x ++ t) = (TreeQuery.scan b t).after items := by
  induction h with
  | done => rfl
  | @item a b raw x t item items hitem _ ih =>
    rw [List.append_assoc]
    cases item with
    | none =>
      rw [scan_of_comma hitem]
      exact congrArg Scan.separated ih
    | some value =>
      rw [scan_of_token hitem, before_append_left]
      exact congrArg (Scan.cons _) ih

lemma settled (h : Crosses a x t items b) : Settled x := by
  induction h with
  | done => exact .nil
  | item hitem _ ih =>
    obtain ⟨raw', htext, -, hraw⟩ := Lexeme.next_raw hitem
    obtain rfl := List.append_cancel_right htext
    exact hraw.append ih

lemma trans (h : Crosses a x (x' ++ t) items b) (h' : Crosses b x' t items' c) :
    Crosses a (x ++ x') t (items ++ items') c := by
  generalize htext : x' ++ t = text at h
  induction h with
  | done => exact h'
  | item hitem _ ih =>
    subst htext
    rw [List.append_assoc]
    exact .item (by rwa [List.append_assoc]) (ih h' rfl)

lemma eq_of_nil (h : Crosses a [] t items b) : items = [] ∧ b = a := by
  generalize hx : [] = x at h
  cases h with
  | done => exact ⟨rfl, rfl⟩
  | item hitem =>
    obtain ⟨raw, htext, hraw, -⟩ := Lexeme.next_raw hitem
    obtain rfl := List.append_cancel_right htext
    exact absurd (List.append_eq_nil_iff.mp hx.symm).1 hraw

lemma single {raw : List Char} (h : (Lexeme.next a (raw ++ t)).item? = some (item, t)) :
    Crosses a raw t [item.map (Token.mk (String.ofList raw))] item.isSome := by
  have hitem := Crosses.item (x := []) h (done item.isSome t)
  rwa [List.append_nil] at hitem

/-- Nothing that is crossed starts with a parenthesis. -/
theorem head (h : Crosses a x t items b) : ∀ d ∈ x.head?, d ≠ '(' := by
  cases h with
  | done => exact nofun
  | item hitem =>
    rintro d hd rfl
    obtain ⟨rest, hrest⟩ := List.head?_eq_some_iff.mp hd
    rw [← List.append_assoc, hrest, List.cons_append, next_open] at hitem
    cases hitem

/-- The items in front of a piece are crossed whatever the piece is. -/
theorem swap (h : Crosses a x (z ++ (p ++ y)) items b) (hz : Settled z) (hp : Piece y p)
    (hq : Piece y q) (hne : z ++ p ≠ []) (hopen : ∀ d ∈ z.head?, d ≠ '(')
    (halike : z = [] → b = true ∧ Alike (p ++ y) (q ++ y))
    (hitems : (y ≠ [] → ('\n' ∈ q ↔ '\n' ∈ p)) ∨ ∀ t, some t ∈ items → t.value.Unnested) :
    Crosses a x (z ++ (q ++ y)) items b := by
  generalize htext : z ++ (p ++ y) = text at h
  induction h with
  | done => exact .done _ _
  | @item a b raw x t item items hitem hrest ih =>
    subst htext
    have hmore := hitems.imp_right fun h t ht => h t (List.mem_cons_of_mem _ ht)
    refine .item ?_ (ih halike hmore rfl)
    have hhead : ∀ d ∈ (x ++ z).head?, d ≠ '(' := by
      cases x with
      | nil => exact hopen
      | cons e x => exact hrest.head
    have hne' : (x ++ z) ++ p ≠ [] := by
      rw [List.append_assoc]
      exact fun hnil => hne (List.append_eq_nil_iff.mp hnil).2
    have hseam : x ++ z = [] → item ≠ none ∧ Alike (p ++ y) (q ++ y) := by
      intro hnil
      obtain ⟨rfl, rfl⟩ := List.append_eq_nil_iff.mp hnil
      obtain ⟨hb, h⟩ := halike rfl
      refine ⟨?_, h⟩
      rintro rfl
      cases hb.symm.trans hrest.eq_of_nil.2
    obtain ⟨raw', htext, -, hraw⟩ := Lexeme.next_raw hitem
    obtain rfl := List.append_cancel_right htext
    have hx : Settled (raw ++ (x ++ z)) := hraw.append (hrest.settled.append hz)
    have hcalls : CallsAlike (raw ++ (x ++ z)) (x ++ z) (p ++ y) (q ++ y) item := by
      obtain hline | hplain := hitems
      · have hp' : Patch ('\n' ∈ p) y p := ⟨hp, fun _ => Iff.rfl⟩
        have hq' : Patch ('\n' ∈ p) y q := ⟨hq, hline⟩
        exact callsAlike hp' hq' hne' fun d hd => stopsAlike (hx.of_suffix hd)
      · refine callsAlike_of_unnested hp hq hne' hhead ?_
        rintro value rfl
        exact hplain ⟨String.ofList raw, value⟩ List.mem_cons_self
    have hitem' : (Lexeme.next a (raw ++ (x ++ z) ++ (p ++ y))).item? =
        some (item, x ++ z ++ (p ++ y)) := by simpa only [List.append_assoc] using hitem
    have hswap := next_swap hx hp hq hne' hcalls (.inr hhead) hseam hitem'
    simpa only [List.append_assoc] using hswap

/-- A scan crosses the text in front of what it leaves. -/
theorem exists_of_scan (a : Bool) (text : List Char) :
    ∃ x items b, text = x ++ (TreeQuery.scan a text).rest ∧
      Crosses a x (TreeQuery.scan a text).rest items b := by
  cases hitem : (Lexeme.next a text).item? with
  | none =>
    rw [(scan_of_none hitem).2]
    exact ⟨[], [], a, rfl, .done _ _⟩
  | some found =>
    obtain ⟨item, rest⟩ := found
    obtain ⟨raw, htext, hne, -⟩ := Lexeme.next_raw hitem
    have hlt := length_lt_of_splits ⟨htext, hne⟩
    obtain ⟨x, items, b, hrest, hcrosses⟩ := exists_of_scan item.isSome rest
    rw [scan_rest_of_item hitem]
    generalize (TreeQuery.scan item.isSome rest).rest = left at hrest hcrosses ⊢
    subst hrest htext
    exact ⟨raw ++ x, _, b, (List.append_assoc _ _ _).symm, .item hitem hcrosses⟩
termination_by text.length

/-- A token of a scan is taken behind the items in front of it. -/
theorem exists_of_mem (a : Bool) (text : List Char) {clause : Clause} {u : Token}
    (hclause : clause ∈ (TreeQuery.scan a text).clauses) (hu : u ∈ clause) :
    ∃ x rest items b, text = x ++ (u.raw.toList ++ rest) ∧
      Crosses a x (u.raw.toList ++ rest) items b ∧
        (Lexeme.next b (u.raw.toList ++ rest)).item? = some (some u.value, rest) := by
  cases hitem : (Lexeme.next a text).item? with
  | none =>
    rw [(scan_of_none hitem).1, List.mem_singleton] at hclause
    cases hclause ▸ hu
  | some found =>
    obtain ⟨item, after⟩ := found
    obtain ⟨raw, htext, hne, -⟩ := Lexeme.next_raw hitem
    have hlt := length_lt_of_splits ⟨htext, hne⟩
    subst htext
    have hmore : (∃ clause ∈ (TreeQuery.scan item.isSome after).clauses, u ∈ clause) →
        ∃ x rest items b, raw ++ after = x ++ (u.raw.toList ++ rest) ∧
          Crosses a x (u.raw.toList ++ rest) items b ∧
            (Lexeme.next b (u.raw.toList ++ rest)).item? = some (some u.value, rest) := by
      rintro ⟨clause, hclause, hu⟩
      obtain ⟨x, rest, items, b, rfl, hcrosses, htaken⟩ :=
        exists_of_mem item.isSome after hclause hu
      exact ⟨raw ++ x, rest, _, b, (List.append_assoc _ _ _).symm, .item hitem hcrosses, htaken⟩
    cases item with
    | none =>
      rw [scan_of_comma hitem] at hclause
      obtain rfl | hlater := List.mem_cons.mp hclause
      · cases hu
      · exact hmore ⟨clause, hlater, hu⟩
    | some value =>
      rw [scan_of_token hitem, before_append_left] at hclause
      obtain rfl | hlater := Scan.mem_clauses_cons hclause hu
      · refine ⟨[], after, [], a, ?_, .done _ _, ?_⟩
        · rw [List.nil_append, String.toList_ofList]
        · rw [String.toList_ofList]
          exact hitem
      · exact hmore hlater
termination_by text.length

/-- A scan that starts with some tokens crosses them. -/
theorem of_first {ts us : Clause} (h : (TreeQuery.scan a text).first = ts ++ us) :
    ∃ rest, text = ts.chars ++ rest ∧ Crosses a ts.chars rest (ts.map some) (a || !ts.isEmpty) := by
  induction ts generalizing a text with
  | nil => exact ⟨text, rfl, by simpa using done a text⟩
  | cons t ts ih =>
    obtain ⟨rest, hitem, rfl, -, hfirst⟩ := scan_first h
    obtain ⟨rest', rfl, hcrosses⟩ := ih hfirst
    refine ⟨rest', by rw [Clause.chars_cons, List.append_assoc], ?_⟩
    have hmore := item hitem (by simpa using hcrosses)
    simpa using hmore

end Crosses

section Tokens

variable {ts us : Clause}

lemma Scan.after_tokens (ts : Clause) (s : Scan) : s.after (ts.map some) = s.prepend ts := by
  induction ts with
  | nil => rfl
  | cons t ts ih =>
    rw [List.map_cons, ← Scan.cons_prepend, ← ih]
    rfl

/-- A scan that starts with some tokens goes on behind their text. -/
theorem scan_split (h : (scan a text).first = ts ++ us) :
    ∃ rest, text = ts.chars ++ rest ∧ Settled ts.chars ∧
      scan a text = (scan (a || !ts.isEmpty) rest).prepend ts := by
  obtain ⟨rest, rfl, hcrosses⟩ := Crosses.of_first h
  exact ⟨rest, rfl, hcrosses.settled, by rw [hcrosses.scan, Scan.after_tokens]⟩

/-- Tokens in front of a patch are read whatever the patch is. -/
theorem scan_swap (hx : Settled (ts.chars ++ z)) (hp : Patch broken y p) (hq : Patch broken y q)
    (hne : z ++ p ≠ []) (hz : ∀ d ∈ z.head?, d ≠ '(') (halike : z = [] → Alike (p ++ y) (q ++ y))
    (h : (scan a (ts.chars ++ z ++ (p ++ y))).first = ts ++ us) :
    scan a (ts.chars ++ z ++ (q ++ y)) =
      (scan (a || !ts.isEmpty) (z ++ (q ++ y))).prepend ts := by
  obtain ⟨rest, htext, hcrosses⟩ := Crosses.of_first h
  rw [List.append_assoc] at htext ⊢
  obtain rfl := List.append_cancel_left htext
  cases ts with
  | nil => simp
  | cons t ts =>
    have hseam : z = [] → (a || !(t :: ts).isEmpty) = true ∧ Alike (p ++ y) (q ++ y) :=
      fun hnil => ⟨by simp, halike hnil⟩
    have hswap := hcrosses.swap (hcrosses.settled.of_append_left hx) hp.toPiece hq.toPiece hne hz
      hseam (.inl fun hy => (hq.line hy).trans (hp.line hy).symm)
    rw [hswap.scan, Scan.after_tokens]

end Tokens

end TreeQuery
