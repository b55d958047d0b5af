import TreeQuery.Proofs.Selector.Tails.Prefixes

/-!
# Lexemes in front of a patch

An item that ends within a text is taken from it whatever patch stands behind the text. For an
argument that is cut this rests on where the scan of a shorter text stops.
-/

namespace TreeQuery

open Written

variable {broken : Prop} {afterToken : Bool} {c : Char} {x x' y p q t t' text more : List Char}
  {item : Option TokenValue}

section Starts

def signOf? (c : Char) : Option Combinator :=
  if c = '>' then some .child
  else if c = '+' then some .adjacent
  else if c = '~' then some .sibling
  else none

/-- What a comma is read as, with the text after it. -/
def Lexeme.separation : List Char → Lexeme
  | [] => .unknown
  | c :: rest => .separator (c :: rest)

lemma combinator?_of_cons (h : dropBlanks text = c :: more) :
    combinator? text = match signOf? c with
      | some k => some (k, dropBlanks more)
      | none =>
        if (c :: more).length < text.length then some (.descendant, c :: more) else none := by
  rw [combinator?, h, signOf?]
  by_cases hchild : c = '>'
  · rw [hchild]
    rfl
  · by_cases hadjacent : c = '+'
    · rw [hadjacent]
      rfl
    · by_cases hsibling : c = '~'
      · rw [hsibling]
        rfl
      · rw [if_neg hchild, if_neg hadjacent, if_neg hsibling]
        split
        · rename_i heq
          exact absurd (List.cons.inj heq).1 hchild
        · rename_i heq
          exact absurd (List.cons.inj heq).1 hadjacent
        · rename_i heq
          exact absurd (List.cons.inj heq).1 hsibling
        · rfl

/-- The first lexeme by the first character that is no blank. -/
theorem next_of_cons (h : dropBlanks text = c :: more) :
    Lexeme.next afterToken text =
      if afterToken = true ∧ c = ',' then .separation (dropBlanks more)
      else match signOf? c with
        | some k => .token (.combinator k) (dropBlanks more)
        | none =>
          if (c :: more).length < text.length then .token (.combinator .descendant) (c :: more)
          else simpleTest text := by
  have hseparator : separator? text = if c = ',' then some (dropBlanks more) else none := by
    rw [separator?, h]
    by_cases hc : c = ','
    · rw [hc]
      rfl
    · rw [if_neg hc]
      split
      · rename_i heq
        exact absurd (List.cons.inj heq).1 hc
      · rfl
  rw [Lexeme.next, hseparator, combinator?_of_cons h]
  by_cases hcomma : afterToken = true ∧ c = ','
  · rw [if_pos hcomma, if_pos hcomma.1, if_pos hcomma.2]
    cases dropBlanks more <;> rfl
  · have hnone : (if afterToken = true then if c = ',' then some (dropBlanks more) else none
        else none) = none := by
      by_cases hafter : afterToken = true
      · rw [if_pos hafter, if_neg fun hc => hcomma ⟨hafter, hc⟩]
      · rw [if_neg hafter]
    rw [if_neg hcomma, hnone]
    cases signOf? c with
    | some k => rfl
    | none =>
      dsimp only
      by_cases hlength : (c :: more).length < text.length
      · rw [if_pos hlength, if_pos hlength]
      · rw [if_neg hlength, if_neg hlength]

lemma next_of_nil (h : dropBlanks text = []) (hne : text ≠ []) :
    Lexeme.next afterToken text = .token (.combinator .descendant) [] := by
  have hseparator : separator? text = none := by rw [separator?, h]
  have hcombinator : combinator? text = some (.descendant, []) := by
    rw [combinator?, h]
    exact if_pos (List.length_pos_iff.mpr hne)
  rw [Lexeme.next, hseparator, hcombinator]
  cases afterToken <;> rfl

end Starts

section Seams

/-- Whether a text starts with neither a blank nor a sign. -/
def Solid (text : List Char) : Prop :=
  ∀ c ∈ text.head?, isBlank c = false ∧ c ∉ [',', '>', '+', '~']

/-- Whether blanks and signs in front of two texts go on in both of them, or end there, or cannot
end in front of the first. -/
def Alike (t t' : List Char) : Prop :=
  t.head? = t'.head? ∨ Solid t ∧ Solid t' ∨ ∃ c ∈ t.head?, isBlank c = true

lemma Alike.head {P : Char → Prop} (h : Alike t t') (ht : ∀ c ∈ t.head?, P c)
    (hblank : ∀ c, P c → isBlank c = false)
    (hsolid : ∀ c, isBlank c = false ∧ c ∉ [',', '>', '+', '~'] → P c) : ∀ c ∈ t'.head?, P c := by
  obtain heq | ⟨-, ht'⟩ | ⟨c, hc, hb⟩ := h
  · exact heq ▸ ht
  · exact fun c hc => hsolid c (ht' c hc)
  · cases hb.symm.trans (hblank c (ht c hc))

lemma dropBlanks_eq_self (h : ∀ c ∈ t.head?, isBlank c = false) : dropBlanks t = t := by
  cases t with
  | nil => rfl
  | cons c t => rw [dropBlanks, List.dropWhile_cons_of_neg (by simp [h c rfl])]

lemma dropBlanks_dropBlanks (text : List Char) :
    dropBlanks (dropBlanks text) = dropBlanks text := by
  refine dropBlanks_eq_self fun c hc => ?_
  have hstop := List.head?_dropWhile_not isBlank text
  rw [show (text.dropWhile isBlank).head? = some c from hc] at hstop
  simpa using hstop

lemma isBlank_of_dropBlanks (h : dropBlanks t = t) : ∀ c ∈ t.head?, isBlank c = false := by
  intro c hc
  have hstop := List.head?_dropWhile_not isBlank t
  rw [show t.dropWhile isBlank = t from h, show t.head? = some c from hc] at hstop
  simpa using hstop

lemma eq_nil_of_length_le {t rest : List Char} (h : rest = x' ++ t)
    (hle : rest.length ≤ t.length) : x' = [] := by
  rw [h, List.length_append] at hle
  exact List.length_eq_zero_iff.mp (by omega)

/-- What is taken in front of a tail is not taken from the tail alone. -/
theorem ne_nil_of_taken {raw : List Char} (h : x ++ t = raw ++ (x' ++ t)) (hraw : raw ≠ []) :
    x ≠ [] := by
  rintro rfl
  have hlength := congrArg List.length h
  have hpos := List.length_pos_iff.mpr hraw
  simp only [List.length_append, List.length_nil] at hlength
  omega

/-- What stands behind a patch does not end with the patch and what stands in front of it. -/
theorem ne_of_suffix {after : List Char} (h : after <:+ y) (hne : x' ++ p ≠ []) :
    after ≠ x' ++ (p ++ y) := by
  rintro rfl
  have hlength := h.length_le
  have hpos := List.length_pos_iff.mpr hne
  simp only [List.length_append] at hlength hpos
  omega

/-- Blanks that end in front of a tail end there also in front of another one. -/
theorem dropBlanks_swap (h : dropBlanks (x ++ t) = x' ++ t) (hseam : x' ≠ [] ∨ Alike t t') :
    dropBlanks (x ++ t') = x' ++ t' := by
  cases hdrop : dropBlanks x with
  | nil =>
    rw [dropBlanks_append_of_nil hdrop] at h ⊢
    obtain rfl := eq_nil_of_length_le h (dropBlanks_suffix t).length_le
    have halike := hseam.resolve_left fun hne => hne rfl
    exact dropBlanks_eq_self
      (halike.head (isBlank_of_dropBlanks h) (fun _ hc => hc) fun _ hc => hc.1)
  | cons c more =>
    rw [dropBlanks_append_of_cons hdrop] at h ⊢
    rw [List.append_cancel_right h]

/-- Blanks alone go up to a text that starts with neither a blank nor a sign. -/
theorem next_blanks_append (hdrop : dropBlanks x = []) (hne : x ≠ [])
    (ht : ∀ c ∈ t.head?, isBlank c = false ∧ ¬(afterToken = true ∧ c = ',') ∧ signOf? c = none) :
    Lexeme.next afterToken (x ++ t) = .token (.combinator .descendant) t := by
  have hself : dropBlanks t = t := dropBlanks_eq_self fun c hc => (ht c hc).1
  cases t with
  | nil =>
    rw [List.append_nil]
    exact next_of_nil hdrop hne
  | cons c t =>
    obtain ⟨-, hcomma, hsign⟩ := ht c rfl
    have hcons : dropBlanks (x ++ c :: t) = c :: t := by rw [dropBlanks_append_of_nil hdrop, hself]
    have hlength := List.length_pos_iff.mpr hne
    rw [next_of_cons hcons, if_neg hcomma, hsign]
    exact if_pos (by rw [List.length_append]; omega)

lemma Lexeme.separation_item? {rest : List Char} {found : Option TokenValue × List Char}
    (h : (Lexeme.separation rest).item? = some found) : found = (none, rest) := by
  cases rest with
  | nil => exact nomatch h
  | cons c rest => exact (Option.some.inj h).symm

lemma signOf?_eq_none (hc : c ∉ [',', '>', '+', '~']) : signOf? c = none := by
  simp only [List.mem_cons, List.not_mem_nil, or_false, not_or] at hc
  rw [signOf?, if_neg hc.2.1, if_neg hc.2.2.1, if_neg hc.2.2.2]

lemma next_blanks_swap (hdrop : dropBlanks x = []) (hne : x ≠ [])
    (halike : x' = [] → Alike t t')
    (h : (Lexeme.next afterToken (x ++ t)).item? = some (item, x' ++ t)) :
    (Lexeme.next afterToken (x ++ t')).item? = some (item, x' ++ t') := by
  -- What is taken ends before the tail, so the blanks were all of it.
  have hhead : x' = [] ∧ item = some (.combinator .descendant) ∧ ∀ c ∈ t.head?,
      isBlank c = false ∧ ¬(afterToken = true ∧ c = ',') ∧ signOf? c = none := by
    have hsuffix := (dropBlanks_suffix t).length_le
    cases hcons : dropBlanks t with
    | nil =>
      rw [next_of_nil (by rw [dropBlanks_append_of_nil hdrop, hcons]) (by simp [hne])] at h
      obtain ⟨rfl, heq⟩ := Prod.mk.inj (Option.some.inj h)
      obtain ⟨rfl, rfl⟩ := List.append_eq_nil_iff.mp heq.symm
      exact ⟨rfl, rfl, nofun⟩
    | cons c more =>
      rw [hcons, List.length_cons] at hsuffix
      have hmore := (dropBlanks_suffix more).length_le
      have hlong : ∀ {rest : List Char}, rest = x' ++ t → t.length ≤ rest.length := by
        rintro rest rfl
        rw [List.length_append]
        omega
      rw [next_of_cons (by rw [dropBlanks_append_of_nil hdrop, hcons])] at h
      by_cases hcomma : afterToken = true ∧ c = ','
      · rw [if_pos hcomma] at h
        have hrest := hlong (Prod.mk.inj (Lexeme.separation_item? h)).2.symm
        omega
      · rw [if_neg hcomma] at h
        cases hsign : signOf? c with
        | some k =>
          rw [hsign] at h
          have hrest := hlong (Prod.mk.inj (Option.some.inj h)).2
          omega
        | none =>
          have hlength := List.length_pos_iff.mpr hne
          rw [hsign] at h
          dsimp only at h
          rw [if_pos (by rw [List.length_append, List.length_cons]; omega)] at h
          obtain ⟨rfl, heq⟩ := Prod.mk.inj (Option.some.inj h)
          obtain rfl := eq_nil_of_length_le heq (by rw [List.length_cons]; omega)
          obtain rfl : c :: more = t := heq
          refine ⟨rfl, rfl, ?_⟩
          rintro d ⟨⟩
          exact ⟨isBlank_of_dropBlanks hcons _ rfl, hcomma, hsign⟩
  obtain ⟨rfl, rfl, hhead⟩ := hhead
  rw [next_blanks_append hdrop hne ((halike rfl).head hhead (fun _ hc => hc.1) fun c hc =>
    ⟨hc.1, fun hcomma => hc.2 (by simp [hcomma.2]), signOf?_eq_none hc.2⟩)]
  rfl

end Seams

section Names

lemma afterBlank_of_solid (h : ∀ c ∈ t.head?, isBlank c = false) :
    leadingBlank t = [] ∧ afterBlank t = t := by
  cases t with
  | nil => exact ⟨rfl, rfl⟩
  | cons c t =>
    have hc := h c rfl
    exact ⟨by rw [leadingBlank, hc]; rfl, by rw [afterBlank, hc]; rfl⟩

lemma afterBlank_length_lt (h : ¬∀ c ∈ t.head?, isBlank c = false) :
    (afterBlank t).length < t.length := by
  cases t with
  | nil => exact absurd nofun h
  | cons c t =>
    cases hc : isBlank c with
    | true =>
      rw [afterBlank, hc, List.length_cons]
      exact Nat.lt_succ_self _
    | false => exact absurd (by rintro d ⟨⟩; exact hc) h

/-- A name ends within a text, or not before the tail has begun. -/
theorem identifier?_seam (hx : Settled x) (ht : Boundary t) {name after : List Char}
    (h : identifier? (x ++ t) = some (name, after)) :
    (∃ rest, after = rest ++ t ∧ x = name ++ rest ∧ Settled rest ∧
      ∀ t', Boundary t' → (rest = [] → Alike t t') →
        identifier? (x ++ t') = some (name, rest ++ t')) ∨ after.length < t.length := by
  obtain hnone | ⟨name', rest, rfl, -, hrest, hsome⟩ | ⟨-, hopen⟩ := identifier?_append_tail hx
  · exact nomatch (hnone t ht).symm.trans h
  · obtain ⟨rfl, rfl⟩ := Prod.mk.inj (Option.some.inj ((hsome t ht).symm.trans h))
    exact .inl ⟨rest, rfl, rfl, hrest, fun t' ht' _ => hsome t' ht'⟩
  · by_cases hblank : ∀ c ∈ t.head?, isBlank c = false
    · left
      have hname : ∀ t', Boundary t' → (∀ c ∈ t'.head?, isBlank c = false) →
          identifier? (x ++ t') = some (x, t') := by
        intro t' ht' hblank'
        obtain ⟨hleading, hafter⟩ := afterBlank_of_solid hblank'
        rw [hopen t' ht', hleading, hafter, splitIdentifier_stop ht'.identifierUnit?_eq_none,
          List.nil_append, List.append_nil]
      obtain ⟨rfl, rfl⟩ := Prod.mk.inj (Option.some.inj ((hname t ht hblank).symm.trans h))
      refine ⟨[], rfl, (List.append_nil _).symm, .nil, fun t' ht' halike => ?_⟩
      exact hname t' ht' ((halike rfl).head hblank (fun _ hc => hc) fun _ hc => hc.1)
    · right
      obtain ⟨-, rfl⟩ := Prod.mk.inj (Option.some.inj ((hopen t ht).symm.trans h))
      have hsuffix : (splitIdentifier (afterBlank t)).2 <:+ afterBlank t :=
        ⟨_, splitIdentifier_append (afterBlank t)⟩
      exact Nat.lt_of_le_of_lt hsuffix.length_le (afterBlank_length_lt hblank)

lemma identifier?_swap (hx : Settled x) (ht : Boundary t) (ht' : Boundary t')
    (halike : x' = [] → Alike t t') {name : List Char}
    (h : identifier? (x ++ t) = some (name, x' ++ t)) :
    identifier? (x ++ t') = some (name, x' ++ t') := by
  obtain ⟨rest, heq, -, -, hsome⟩ | hlength := identifier?_seam hx ht h
  · obtain rfl := List.append_cancel_right heq
    exact hsome t' ht' halike
  · rw [List.length_append] at hlength
    omega

lemma isSome_identifier?_append (hx : Settled x) (ht : Boundary t) (ht' : Boundary t') :
    (identifier? (x ++ t)).isSome = (identifier? (x ++ t')).isSome := by
  obtain hnone | ⟨name, rest, -, -, -, hsome⟩ | ⟨-, hopen⟩ := identifier?_append_tail hx
  · rw [hnone t ht, hnone t' ht']
  · rw [hsome t ht, hsome t' ht']
    rfl
  · rw [hopen t ht, hopen t' ht']
    rfl

lemma namedLexeme_swap (value : String → TokenValue) (hx : Settled x) (ht : Boundary t)
    (ht' : Boundary t') (halike : x' = [] → Alike t t')
    (h : (namedLexeme value (x ++ t)).item? = some (item, x' ++ t)) :
    (namedLexeme value (x ++ t')).item? = some (item, x' ++ t') := by
  obtain ⟨name, hname, rfl⟩ := namedLexeme_item? value h
  rw [namedLexeme, identifier?_swap hx ht ht' halike hname]
  rfl

lemma isSome_namedLexeme (value : String → TokenValue) (text : List Char) :
    (namedLexeme value text).item?.isSome = (identifier? text).isSome := by
  rw [namedLexeme]
  cases identifier? text <;> rfl

end Names

section Cuts

/-- Whether the scan of a text stops in front of a parenthesis of the text whatever patch follows,
if it stops there for one patch. -/
def StopsAlike (broken : Prop) (x : List Char) : Prop :=
  ∀ (afterToken : Bool) {y p q x' : List Char}, Patch broken y p → Patch broken y q →
    ')' ∈ x' → (scan afterToken (x ++ (p ++ y))).rest = x' ++ (p ++ y) →
      (scan afterToken (x ++ (q ++ y))).rest = x' ++ (q ++ y)

lemma splitUnread_of_append (consumed left : List Char) :
    splitUnread (consumed ++ left) left.length =
      (consumed ++ left.takeWhile (· != ')'), left.dropWhile (· != ')')) := by
  have hlength : (consumed ++ left).length - left.length = consumed.length := by
    rw [List.length_append]
    omega
  rw [splitUnread, hlength, List.take_left, List.drop_left]

/-- Where an argument is cut in front of a patch, it is cut there also in front of another one. -/
theorem splitUnread_swap {a b rest : List Char} (hscan : StopsAlike broken a)
    (hp : Patch broken b p) (hq : Patch broken b q)
    (h : ((splitUnread (a ++ (p ++ b)) (scan false (a ++ (p ++ b))).rest.length).2 ++
      ')' :: rest).tail = x' ++ (p ++ (b ++ ')' :: rest))) :
    ∃ front, (splitUnread (a ++ (p ++ b)) (scan false (a ++ (p ++ b))).rest.length).1 = front ∧
      splitUnread (a ++ (q ++ b)) (scan false (a ++ (q ++ b))).rest.length =
        (front, ')' :: (x' ++ (q ++ b))) := by
  obtain ⟨consumed, hargument⟩ := scan_rest_suffix false (a ++ (p ++ b))
  have hstop := fun x' => @hscan false b p q x' hp hq
  generalize (scan false (a ++ (p ++ b))).rest = left at h hargument hstop
  rw [← hargument, splitUnread_of_append] at h
  rw [← hargument, splitUnread_of_append]
  have hleft : left.takeWhile (· != ')') ++ left.dropWhile (· != ')') = left :=
    List.takeWhile_append_dropWhile
  have hordinary : ∀ c ∈ left.takeWhile (· != ')'), (c != ')') = true := fun c hc =>
    List.mem_takeWhile_imp (p := (· != ')')) hc
  have hhead := List.head?_dropWhile_not (· != ')') left
  generalize left.takeWhile (· != ')') = skipped at hleft hordinary ⊢
  generalize left.dropWhile (· != ')') = cut at h hleft hhead
  cases cut with
  | nil =>
    have hlength := congrArg List.length h
    simp only [List.nil_append, List.tail_cons, List.length_append, List.length_cons] at hlength
    omega
  | cons d cut =>
    obtain rfl : d = ')' := by simpa using hhead
    have hcut : cut = x' ++ (p ++ b) := by
      have hassoc : cut ++ ')' :: rest = x' ++ (p ++ b) ++ ')' :: rest := by
        simpa only [List.cons_append, List.tail_cons, List.append_assoc] using h
      exact List.append_cancel_right hassoc
    subst hcut
    have hrest := hstop (skipped ++ ')' :: x') (by simp) (by rw [← hleft]; simp)
    have ha : a = consumed ++ (skipped ++ ')' :: x') := by
      rw [← hleft] at hargument
      have htext : a ++ (p ++ b) = consumed ++ (skipped ++ ')' :: x') ++ (p ++ b) := by
        rw [← hargument]
        simp
      exact List.append_cancel_right htext
    have htext : a ++ (q ++ b) = consumed ++ (skipped ++ ')' :: x' ++ (q ++ b)) := by
      rw [ha, List.append_assoc]
    refine ⟨_, rfl, ?_⟩
    rw [hrest, htext, splitUnread_of_append, List.append_assoc, List.cons_append,
      List.takeWhile_append_of_pos hordinary, List.dropWhile_append_of_pos hordinary]
    simp

end Cuts

section Tests

/-- Whether nothing opens where an item ends, or it ends in front of a parenthesis. -/
def Unopened (x : List Char) : Prop :=
  ')' ∈ x ∨ ∀ c ∈ x.head?, c ≠ '('

/-- Whether a pseudo-class that ends within a text is the same whatever patch follows. -/
def CallsAlike (x x' t t' : List Char) (item : Option TokenValue) : Prop :=
  ∀ spelled rest, rest <:+ x → Settled rest →
    (callLexeme spelled (splitArgument (rest ++ t))).item? = some (item, x' ++ t) →
      (callLexeme spelled (splitArgument (rest ++ t'))).item? = some (item, x' ++ t')

lemma callLexeme_copy {spelled rest : List Char} {argument : Argument}
    (h : (callLexeme spelled (argument, rest ++ t)).item? = some (item, x' ++ t)) :
    (callLexeme spelled (argument, rest ++ t')).item? = some (item, x' ++ t') := by
  rw [callLexeme_append] at h ⊢
  obtain ⟨⟨item', rest'⟩, hfound, heq⟩ := Option.map_eq_some_iff.mp h
  obtain ⟨rfl, htext⟩ := Prod.mk.inj heq
  obtain rfl := List.append_cancel_right htext
  rw [hfound]
  rfl

lemma callLexeme_rest {spelled : List Char} {argument : Argument} {rest rest' : List Char}
    (hother : ∀ inner, argument ≠ .line inner)
    (h : (callLexeme spelled (argument, rest)).item? = some (item, rest')) : rest = rest' := by
  cases argument with
  | line text => exact absurd rfl (hother text)
  | _ => exact (Prod.mk.inj (Option.some.inj h)).2

lemma callsAlike (hp : Patch broken y p) (hq : Patch broken y q) (hne : x' ++ p ≠ [])
    (hscan : ∀ a, '(' :: a <:+ x → StopsAlike broken a) :
    CallsAlike x x' (p ++ y) (q ++ y) item := by
  intro spelled rest hsuffix hrest h
  obtain habsent | ⟨argument, front, after, -, hclosed⟩ | ⟨inner, front, after, -, hwithin⟩ |
    ⟨after, hafter, hsome⟩ | ⟨a, b, after, rfl, rfl, hline⟩ := argumentReading hrest broken y
  · rw [habsent p hp] at h
    rw [habsent q hq]
    exact callLexeme_copy h
  · rw [hclosed p hp.toPiece] at h
    rw [hclosed q hq.toPiece]
    exact callLexeme_copy h
  · rw [hwithin p hp] at h
    rw [hwithin q hq]
    exact callLexeme_copy h
  · obtain ⟨argument, hargument, hother⟩ := hsome p hp.toPiece
    rw [hargument] at h
    exact absurd (callLexeme_rest hother h) (ne_of_suffix hafter hne)
  · have hmentions := mentionsPseudo_append_patch (hrest.of_cons (by decide)) rfl hp hq
    rw [hline p hp, callLexeme] at h
    rw [hline q hq, callLexeme, ← hmentions]
    split at h
    · rename_i hmention
      rw [if_pos hmention]
      obtain ⟨hitem, htail⟩ := Prod.mk.inj (Option.some.inj h)
      obtain ⟨front, hfront, hsplit⟩ := splitUnread_swap (hscan a hsuffix) hp.of_append
        hq.of_append htail
      rw [hfront] at hitem
      rw [Lexeme.item?, hsplit, ← hitem]
      dsimp only
      simp only [List.cons_append, List.tail_cons, List.append_assoc]
    · have hafter : after <:+ b ++ ')' :: after := ⟨b ++ [')'], by simp⟩
      exact absurd (Prod.mk.inj (Option.some.inj h)).2 (ne_of_suffix hafter hne)

lemma closedPosition_of_mem (h : ')' ∈ x) : ClosedPosition x := by
  intro found after hname
  obtain ⟨name, rfl, -, hall⟩ := structuralName?_eq_some hname
  obtain hmem | hmem := List.mem_append.mp h
  · exact absurd (hall _ hmem).2 (by decide)
  · exact List.mem_of_ne_of_mem (by decide) hmem

lemma closedPosition_of_item (ht : Boundary t) (hopen : Unopened x')
    (h : (simpleTest (':' :: (x ++ t))).item? = some (item, x' ++ t)) : ClosedPosition x := by
  intro found after hname
  have hclosed : x' = '(' :: after → ')' ∈ after := by
    rintro rfl
    obtain hmem | hhead := hopen
    · exact List.mem_of_ne_of_mem (by decide) hmem
    · exact absurd rfl (hhead _ rfl)
  obtain ⟨front, hfront⟩ | ⟨found', hname'⟩ | ⟨name, hname'⟩ := simpleTest_colon h
  · have htext : x ++ t = front ++ ')' :: x' ++ t := by
      rw [hfront, List.append_assoc, List.cons_append]
    have hx : x = front ++ ')' :: x' := List.append_cancel_right htext
    exact closedPosition_of_mem (by simp [hx]) found after hname
  · rw [structuralName?_append ht, hname] at hname'
    obtain ⟨-, heq⟩ := Prod.mk.inj (Option.some.inj hname')
    exact hclosed (List.append_cancel_right heq).symm
  · obtain ⟨name', hidentifier⟩ := identifier?_of_structuralName? hname t
    obtain ⟨-, heq⟩ := Prod.mk.inj (Option.some.inj (hidentifier.symm.trans hname'))
    exact hclosed (List.append_cancel_right heq).symm

lemma colon_swap (hx : Settled x) (hp : Piece y p) (hq : Piece y q)
    (hcalls : CallsAlike x x' (p ++ y) (q ++ y) item) (hopen : Unopened x')
    (halike : x' = [] → Alike (p ++ y) (q ++ y))
    (h : (simpleTest (':' :: (x ++ (p ++ y)))).item? = some (item, x' ++ (p ++ y))) :
    (simpleTest (':' :: (x ++ (q ++ y)))).item? = some (item, x' ++ (q ++ y)) := by
  have hclosed := closedPosition_of_item hp.tail.boundary hopen h
  have hstructural := fun (t : List Char) (ht : Boundary t) => structural?_append ht hclosed
  simp only [List.cons_append] at hstructural
  rw [simpleTest_colon_eq, hstructural _ hp.tail.boundary] at h
  rw [simpleTest_colon_eq, hstructural _ hq.tail.boundary]
  cases hfound : structural? (':' :: x) with
  | some found =>
    rw [hfound] at h
    obtain ⟨result, rest⟩ := found
    cases result with
    | error e => exact nomatch h
    | ok position =>
      obtain ⟨rfl, heq⟩ := Prod.mk.inj (Option.some.inj h)
      obtain rfl := List.append_cancel_right heq
      rfl
  | none =>
    rw [hfound] at h
    dsimp only [Option.map_none] at h ⊢
    rw [pseudo?_eq] at h ⊢
    cases hname : identifier? (x ++ (p ++ y)) with
    | none =>
      rw [hname] at h
      exact nomatch h
    | some found =>
      obtain ⟨name, after⟩ := found
      rw [hname, Option.map_some, Option.getD_some] at h
      have hlong : (x' ++ (p ++ y)).length ≤ after.length := by
        obtain heq | ⟨front, heq⟩ := callLexeme_front h
        · rw [heq]
        · simp only [heq, List.length_append, List.length_cons]
          omega
      obtain ⟨rest, rfl, rfl, hrest, hsome⟩ | hlength := identifier?_seam hx hp.tail.boundary hname
      · have hseam : rest = [] → Alike (p ++ y) (q ++ y) := by
          rintro rfl
          exact halike (eq_nil_of_length_le rfl hlong)
        rw [hsome _ hq.tail.boundary hseam, Option.map_some, Option.getD_some]
        exact hcalls name rest (List.suffix_append _ _) hrest h
      · rw [List.length_append] at hlong
        omega

lemma bracket_swap (hx : Settled x) (hp : Piece y p) (hq : Piece y q) (hne : x' ++ p ≠ [])
    (h : (simpleTest ('[' :: (x ++ (p ++ y)))).item? = some (item, x' ++ (p ++ y))) :
    (simpleTest ('[' :: (x ++ (q ++ y)))).item? = some (item, x' ++ (q ++ y)) := by
  rw [simpleTest_bracket_eq] at h ⊢
  obtain hnone | ⟨test, rest, -, -, hsome⟩ | ⟨rest, hrest, hsome⟩ := reading_attributeTest? hx y
  · rw [hnone p hp] at h
    cases h
  · rw [hsome p hp] at h
    rw [hsome q hq]
    obtain ⟨rfl, htext⟩ := Prod.mk.inj (Option.some.inj h)
    obtain rfl := List.append_cancel_right htext
    rfl
  · obtain ⟨test, htest⟩ := hsome p hp
    rw [htest] at h
    exact absurd (Prod.mk.inj (Option.some.inj h)).2 (ne_of_suffix hrest hne)

lemma simpleTest_swap (hx : Settled x) (hp : Piece y p) (hq : Piece y q) (hne : x' ++ p ≠ [])
    (hcalls : CallsAlike x x' (p ++ y) (q ++ y) item) (hopen : Unopened x')
    (halike : x' = [] → Alike (p ++ y) (q ++ y))
    (h : (simpleTest (x ++ (p ++ y))).item? = some (item, x' ++ (p ++ y))) :
    (simpleTest (x ++ (q ++ y))).item? = some (item, x' ++ (q ++ y)) := by
  cases x with
  | nil =>
    obtain ⟨raw, htext, hraw, -⟩ := simpleTest_raw h
    exact absurd rfl (ne_nil_of_taken htext hraw)
  | cons c x =>
    have hpt := hp.tail.boundary
    have hqt := hq.tail.boundary
    by_cases hc : c ∈ ['*', '#', '.', '[', ':']
    · have hx' : Settled x := hx.of_cons (by rintro rfl; exact absurd hc (by decide))
      simp only [List.mem_cons, List.not_mem_nil, or_false] at hc
      obtain rfl | rfl | rfl | rfl | rfl := hc
      · obtain ⟨rfl, htext⟩ := Prod.mk.inj (Option.some.inj h)
        obtain rfl := List.append_cancel_right htext
        rfl
      · exact namedLexeme_swap .id hx' hpt hqt halike h
      · exact namedLexeme_swap .className hx' hpt hqt halike h
      · exact bracket_swap hx' hp hq hne h
      · exact colon_swap hx' hp hq (fun spelled rest hsuffix =>
          hcalls spelled rest (hsuffix.trans (List.suffix_cons _ _))) hopen halike h
    · rw [List.cons_append, simpleTest_other hc, ← List.cons_append] at h ⊢
      exact namedLexeme_swap .tag hx hpt hqt halike h

/-- An item that ends within a text is the same whatever patch follows, if pseudo-classes are. -/
theorem next_swap (hx : Settled x) (hp : Piece y p) (hq : Piece y q) (hne : x' ++ p ≠ [])
    (hcalls : CallsAlike x x' (p ++ y) (q ++ y) item) (hopen : Unopened x')
    (halike : x' = [] → item ≠ none ∧ Alike (p ++ y) (q ++ y))
    (h : (Lexeme.next afterToken (x ++ (p ++ y))).item? = some (item, x' ++ (p ++ y))) :
    (Lexeme.next afterToken (x ++ (q ++ y))).item? = some (item, x' ++ (q ++ y)) := by
  have halike' : x' = [] → Alike (p ++ y) (q ++ y) := fun hnil => (halike hnil).2
  have hseam : x' ≠ [] ∨ Alike (p ++ y) (q ++ y) := or_iff_not_imp_left.mpr fun hnil =>
    halike' (not_not.mp hnil)
  cases hdrop : dropBlanks x with
  | nil =>
    refine next_blanks_swap hdrop ?_ halike' h
    obtain ⟨raw, htext, hraw, -⟩ := Lexeme.next_raw h
    exact ne_nil_of_taken htext hraw
  | cons c more =>
    have hcons : ∀ t, dropBlanks (x ++ t) = c :: (more ++ t) := fun t =>
      dropBlanks_append_of_cons hdrop
    rw [next_of_cons (hcons _)] at h ⊢
    by_cases hcomma : afterToken = true ∧ c = ','
    · rw [if_pos hcomma] at h ⊢
      obtain ⟨rfl, htext⟩ := Prod.mk.inj (Lexeme.separation_item? h)
      have hrest := dropBlanks_swap htext.symm hseam
      obtain ⟨d, x', rfl⟩ := List.exists_cons_of_ne_nil fun hnil => (halike hnil).1 rfl
      rw [hrest]
      rfl
    · rw [if_neg hcomma] at h ⊢
      cases hsign : signOf? c with
      | some k =>
        rw [hsign] at h
        obtain ⟨rfl, htext⟩ := Prod.mk.inj (Option.some.inj h)
        dsimp only
        rw [dropBlanks_swap htext hseam]
        rfl
      | none =>
        rw [hsign] at h
        dsimp only at h ⊢
        have hlength : ∀ t : List Char, (c :: (more ++ t)).length < (x ++ t).length ↔
            (c :: more).length < x.length := by
          intro t
          simp only [List.length_cons, List.length_append]
          omega
        by_cases hblank : (c :: more).length < x.length
        · rw [if_pos ((hlength _).mpr hblank)] at h ⊢
          obtain ⟨rfl, htext⟩ := Prod.mk.inj (Option.some.inj h)
          obtain rfl : c :: more = x' := List.append_cancel_right htext
          rfl
        · rw [if_neg fun hlt => hblank ((hlength _).mp hlt)] at h ⊢
          exact simpleTest_swap hx hp hq hne hcalls hopen halike' h

end Tests

section Stops

variable (hx : Settled x) (hmem : ')' ∈ x) (hp : Piece y p) (hq : Piece y q)
include hx hp hq

lemma isSome_bracket : (simpleTest ('[' :: (x ++ (p ++ y)))).item?.isSome =
    (simpleTest ('[' :: (x ++ (q ++ y)))).item?.isSome := by
  rw [simpleTest_bracket_eq, simpleTest_bracket_eq]
  obtain hnone | ⟨test, rest, -, -, hsome⟩ | ⟨rest, -, hsome⟩ := reading_attributeTest? hx y
  · rw [hnone p hp, hnone q hq]
  · rw [hsome p hp, hsome q hq]
    rfl
  · obtain ⟨test, htest⟩ := hsome p hp
    obtain ⟨test', htest'⟩ := hsome q hq
    rw [htest, htest']
    rfl

include hmem

lemma isSome_colon : (simpleTest (':' :: (x ++ (p ++ y)))).item?.isSome =
    (simpleTest (':' :: (x ++ (q ++ y)))).item?.isSome := by
  have hclosed := closedPosition_of_mem hmem
  have hstructural := fun (t : List Char) (ht : Boundary t) => structural?_append ht hclosed
  have hname := isSome_identifier?_append hx hp.tail.boundary hq.tail.boundary
  simp only [List.cons_append] at hstructural
  rw [simpleTest_colon_eq, simpleTest_colon_eq, hstructural _ hp.tail.boundary,
    hstructural _ hq.tail.boundary, pseudo?_eq, pseudo?_eq]
  cases structural? (':' :: x) with
  | some found =>
    obtain ⟨result, rest⟩ := found
    cases result <;> rfl
  | none =>
    dsimp only [Option.map_none]
    generalize identifier? (x ++ (p ++ y)) = found at hname ⊢
    generalize identifier? (x ++ (q ++ y)) = found' at hname ⊢
    cases found with
    | none =>
      cases found' with
      | none => rfl
      | some found' => exact nomatch hname
    | some found =>
      cases found' with
      | none => exact nomatch hname
      | some found' =>
        simp only [Option.map_some, Option.getD_some, isSome_callLexeme]

lemma isSome_simpleTest : (simpleTest (x ++ (p ++ y))).item?.isSome =
    (simpleTest (x ++ (q ++ y))).item?.isSome := by
  cases x with
  | nil => exact absurd hmem List.not_mem_nil
  | cons c x =>
    have hpt := hp.tail.boundary
    have hqt := hq.tail.boundary
    by_cases hc : c ∈ ['*', '#', '.', '[', ':']
    · have hx' : Settled x := hx.of_cons (by rintro rfl; exact absurd hc (by decide))
      simp only [List.mem_cons, List.not_mem_nil, or_false] at hc
      obtain rfl | rfl | rfl | rfl | rfl := hc
      · rfl
      · exact (isSome_namedLexeme .id _).trans ((isSome_identifier?_append hx' hpt hqt).trans
          (isSome_namedLexeme .id _).symm)
      · exact (isSome_namedLexeme .className _).trans ((isSome_identifier?_append hx' hpt hqt).trans
          (isSome_namedLexeme .className _).symm)
      · exact isSome_bracket hx' hp hq
      · exact isSome_colon hx' (List.mem_of_ne_of_mem (by decide) hmem) hp hq
    · rw [List.cons_append, List.cons_append, simpleTest_other hc, simpleTest_other hc,
        isSome_namedLexeme, isSome_namedLexeme, ← List.cons_append, ← List.cons_append]
      exact isSome_identifier?_append hx hpt hqt

/-- Whether a text with a parenthesis starts with a lexeme does not depend on the patch. -/
theorem isSome_next : (Lexeme.next afterToken (x ++ (p ++ y))).item?.isSome =
    (Lexeme.next afterToken (x ++ (q ++ y))).item?.isSome := by
  obtain ⟨-, hmem'⟩ := dropBlanks_append_of_mem hmem []
  obtain ⟨c, more, hdrop⟩ := List.exists_cons_of_ne_nil (List.ne_nil_of_mem hmem')
  have hcons : ∀ t, dropBlanks (x ++ t) = c :: (more ++ t) :=
    fun t => dropBlanks_append_of_cons hdrop
  rw [next_of_cons (hcons _), next_of_cons (hcons _)]
  by_cases hcomma : afterToken = true ∧ c = ','
  · rw [if_pos hcomma, if_pos hcomma]
    have hmore : ')' ∈ more := by
      rw [hdrop] at hmem'
      exact List.mem_of_ne_of_mem (by rw [hcomma.2]; decide) hmem'
    have hseparation : ∀ t, (Lexeme.separation (dropBlanks (more ++ t))).item?.isSome = true := by
      intro t
      obtain ⟨happ, hmem⟩ := dropBlanks_append_of_mem hmore t
      obtain ⟨d, rest, heq⟩ := List.exists_cons_of_ne_nil (List.ne_nil_of_mem hmem)
      rw [happ, heq]
      rfl
    rw [hseparation, hseparation]
  · rw [if_neg hcomma, if_neg hcomma]
    cases signOf? c with
    | some k => rfl
    | none =>
      dsimp only
      have hlength : ∀ t : List Char, (c :: (more ++ t)).length < (x ++ t).length ↔
          (c :: more).length < x.length := by
        intro t
        simp only [List.length_cons, List.length_append]
        omega
      by_cases hblank : (c :: more).length < x.length
      · rw [if_pos ((hlength _).mpr hblank), if_pos ((hlength _).mpr hblank)]
        rfl
      · rw [if_neg fun hlt => hblank ((hlength _).mp hlt),
          if_neg fun hlt => hblank ((hlength _).mp hlt)]
        exact isSome_simpleTest hx hmem hp hq

end Stops

end TreeQuery
