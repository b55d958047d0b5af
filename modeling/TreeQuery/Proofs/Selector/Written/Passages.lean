import TreeQuery.Proofs.Selector.Written.Spelling

/-!
# Texts within parentheses

An argument that is not quoted is first read without nested parentheses. Such a reading passes over
names, attributes and combinators as they are written, and stops at the first argument within the
argument.
-/

namespace TreeQuery

/-- Whether a text has no quotes, brackets or parentheses but escaped ones. -/
inductive Inert : List Char → Prop where
  | nil : Inert []
  | ordinary {c : Char} {text : List Char} :
      c ∉ ['\'', '"', '\\', '[', ']', '(', ')'] → Inert text → Inert (c :: text)
  | escape {c : Char} {text : List Char} : c ≠ '\n' → Inert text → Inert ('\\' :: c :: text)

namespace Inert

variable {p q : List Char}

lemma append (hp : Inert p) (hq : Inert q) : Inert (p ++ q) := by
  induction hp with
  | nil => exact hq
  | ordinary hc _ ih => exact .ordinary hc ih
  | escape hc _ ih => exact .escape hc ih

lemma of_forall (h : ∀ c ∈ p, c ∉ ['\'', '"', '\\', '[', ']', '(', ')']) : Inert p := by
  induction p with
  | nil => exact .nil
  | cons c p ih =>
    obtain ⟨hc, hp⟩ := List.forall_mem_cons.mp h
    exact .ordinary hc (ih hp)

/-- Between quotes an inert text is passed over. -/
theorem quotedBody?_append {quote : Char} (hquote : quote ∈ ['\'', '"']) (h : Inert p)
    (rest : List Char) :
    quotedBody? quote (p ++ rest) =
      (quotedBody? quote rest).map fun (body, rest) => (p ++ body, rest) := by
  induction h with
  | nil => simp
  | @ordinary c p hc _ ih =>
    simp only [List.mem_cons, List.not_mem_nil, or_false, not_or] at hc hquote
    obtain ⟨hsingle, hdouble, hslash, -⟩ := hc
    have hne : c ≠ quote := by
      obtain rfl | rfl := hquote
      · exact hsingle
      · exact hdouble
    rw [List.cons_append, quotedBody?, if_neg hne, ih]
    · cases quotedBody? quote rest <;> rfl
    · exact fun h _ => hslash h
    · exact fun _ _ h _ => hslash h
  | escape hc _ ih =>
    rw [List.cons_append, List.cons_append, quotedBody?, if_neg hc, ih]
    cases quotedBody? quote rest <;> rfl

end Inert

namespace Written

/-- The characters of a class are none of some that are not in it. -/
theorem not_mem_of_class {isIn : Char → Bool} {chars : List Char}
    (h : chars.all (fun d => !isIn d) = true) {c : Char} (hc : isIn c = true) : c ∉ chars := by
  intro hmem
  have hnot := List.all_eq_true.mp h c hmem
  rw [hc] at hnot
  exact nomatch hnot

lemma isBlank_eq_false {isIn : Char → Bool}
    (h : [' ', '\t', '\r', '\n', '\x0c'].all (fun d => !isIn d) = true) {c : Char}
    (hc : isIn c = true) : isBlank c = false := by
  simpa [isBlank, and_assoc] using not_mem_of_class h hc

/-- Whether a text has no quotes, brackets, parentheses or line feeds but escaped ones. -/
inductive Harmless : List Char → Prop where
  | nil : Harmless []
  | ordinary {c : Char} {text : List Char} : c ∉ special → Harmless text → Harmless (c :: text)
  | escape {c : Char} {text : List Char} : c ≠ '\n' → Harmless text → Harmless ('\\' :: c :: text)

lemma Harmless.append {p q : List Char} (hp : Harmless p) (hq : Harmless q) :
    Harmless (p ++ q) := by
  induction hp with
  | nil => exact hq
  | ordinary hc _ ih => exact .ordinary hc ih
  | escape hc _ ih => exact .escape hc ih

lemma harmless_of_ordinary {p : List Char} (h : ∀ c ∈ p, c ∉ special) : Harmless p := by
  induction p with
  | nil => exact .nil
  | cons c p ih =>
    exact .ordinary (h c List.mem_cons_self) (ih fun d hd => h d (List.mem_cons_of_mem c hd))

lemma harmless_of_class {isIn : Char → Bool} (h : special.all (fun d => !isIn d) = true)
    {p : List Char} (hp : ∀ c ∈ p, isIn c = true) : Harmless p :=
  harmless_of_ordinary fun c hc => not_mem_of_class h (hp c hc)

lemma Harmless.noBreak {p : List Char} (h : Harmless p) : '\n' ∉ p := by
  induction h with
  | nil => simp
  | ordinary hc _ ih =>
    simp only [List.mem_cons, not_or]
    exact ⟨fun h => hc (by simp [special, ← h]), ih⟩
  | escape hc _ ih => simp [hc.symm, ih]

lemma Harmless.inert {p : List Char} (h : Harmless p) : Inert p := by
  induction h with
  | nil => exact .nil
  | ordinary hc _ ih =>
    exact .ordinary (fun hmem => hc (List.mem_append_left ['\n'] hmem)) ih
  | escape hc _ ih => exact .escape hc ih

/-- Between double quotes a harmless text is taken as it is. -/
theorem Harmless.quotedBody?_eq {p : List Char} (h : Harmless p) (rest : List Char) :
    quotedBody? '"' (p ++ '"' :: rest) = some (p, rest) := by
  rw [h.inert.quotedBody?_append (by decide)]
  simp [quotedBody?]

/-- Whether a reading without nested parentheses passes over a text. -/
def Passes (p : List Char) : Prop :=
  ∀ rest, splitPlain (p ++ rest) = (p ++ (splitPlain rest).1, (splitPlain rest).2)

lemma Passes.append {p q : List Char} (hp : Passes p) (hq : Passes q) : Passes (p ++ q) := by
  intro rest
  rw [List.append_assoc, hp, hq, List.append_assoc]

lemma Passes.of_inert {p : List Char} (h : Inert p) : Passes p := by
  intro rest
  induction h with
  | nil => rfl
  | @ordinary c p hc _ ih =>
    simp only [List.mem_cons, List.not_mem_nil, or_false, not_or] at hc
    obtain ⟨-, -, hslash, hbracket, hclose, hopen, hparen⟩ := hc
    rw [List.cons_append, splitPlain, if_neg (by simp [hopen, hparen, hclose]), ih]
    · rfl
    · exact fun h => hbracket h
    · exact fun h _ => hslash h
    · exact fun _ _ h _ => hslash h
  | escape hc _ ih =>
    rw [List.cons_append, List.cons_append, splitPlain, if_neg hc, ih]
    rfl

lemma Harmless.passes {p : List Char} (h : Harmless p) : Passes p :=
  .of_inert h.inert

/-- Whether a text opens an argument: a reading without nested parentheses stops there, and the
text mentions a pseudo-class. -/
def Opens (p : List Char) : Prop :=
  ∀ rest, (∃ plain after, splitPlain (p ++ rest) = (plain, '(' :: after)) ∧
    mentionsPseudo (p ++ rest) = true

lemma mentionsPseudo_append {q : List Char} (h : mentionsPseudo q = true) (p : List Char) :
    mentionsPseudo (p ++ q) = true := by
  induction p with
  | nil => exact h
  | cons c p ih => rw [List.cons_append, mentionsPseudo, ih, Bool.or_true]

lemma Opens.append {p : List Char} (h : Opens p) (q : List Char) : Opens (p ++ q) := by
  intro rest
  rw [List.append_assoc]
  exact h (q ++ rest)

lemma Passes.opens {p q : List Char} (hp : Passes p) (hq : Opens q) : Opens (p ++ q) := by
  intro rest
  obtain ⟨⟨plain, after, hsplit⟩, hmentions⟩ := hq rest
  rw [List.append_assoc]
  refine ⟨⟨p ++ plain, after, ?_⟩, mentionsPseudo_append hmentions p⟩
  rw [hp, hsplit]

lemma splitPlain_parenthesis {c : Char} (hc : c = '(' ∨ c = ')') (rest : List Char) :
    splitPlain (c :: rest) = ([], c :: rest) := by
  obtain rfl | rfl := hc
  · rw [splitPlain, if_pos (by decide)] <;> simp
  · rw [splitPlain, if_pos (by decide)] <;> simp

/-- A name and an opening parenthesis open an argument. -/
theorem opens_of_harmless {name : List Char} (hharmless : Harmless name)
    (hname : ∀ rest, (identifierUnit? (name ++ rest)).isSome = true) (text : List Char) :
    Opens (':' :: name ++ '(' :: text) := by
  intro rest
  have hpasses : Passes (':' :: name) := (Harmless.ordinary (by decide) hharmless).passes
  constructor
  · refine ⟨':' :: name, text ++ rest, ?_⟩
    have happ : ':' :: name ++ '(' :: text ++ rest = ':' :: name ++ '(' :: (text ++ rest) := by
      simp
    rw [happ, hpasses, splitPlain_parenthesis (.inl rfl), List.append_nil]
  · simp only [List.cons_append, List.append_assoc, mentionsPseudo, hname, Bool.and_true,
      beq_self_eq_true, Bool.true_or]

/-- A text that is passed over, or that opens an argument. -/
def Passable (p : List Char) : Prop := Passes p ∨ Opens p

lemma Passable.append {p q : List Char} (hp : Passable p) (hq : Passable q) :
    Passable (p ++ q) := by
  obtain hp | hp := hp
  · exact hq.imp hp.append hp.opens
  · exact .inr (hp.append q)

lemma harmless_escapeChar (last : Bool) {c : Char} (hc : c ≠ '\x00') :
    Harmless (escapeChar last c) := by
  have hdigit : ∀ d, isHexDigit d = true → d ∉ special :=
    fun _ => not_mem_of_class (by decide)
  obtain ⟨heq, -, hplain⟩ | ⟨-, digits, hne, hdigits, heq, -⟩ := escapeChar_cases last hc
  · have hclass : special.all (fun d => !(isWordChar d || !isAscii d)) = true := by decide
    rw [heq]
    exact .ordinary (not_mem_of_class hclass hplain) .nil
  · obtain ⟨d, digits, rfl⟩ := List.exists_cons_of_ne_nil hne
    rw [heq]
    refine .escape ?_ (harmless_of_ordinary fun e he => ?_)
    · rintro rfl
      exact hdigit '\n' (hdigits _ List.mem_cons_self) (by simp [special])
    · obtain he | he := List.mem_append.mp he
      · exact hdigit e (hdigits e (List.mem_cons_of_mem d he))
      · cases last with
        | true => simp at he
        | false =>
          obtain rfl := List.mem_singleton.mp he
          decide

lemma harmless_spell (last : Bool) {chars : List Char} (hnul : '\x00' ∉ chars) :
    Harmless (spell last chars) := by
  induction chars with
  | nil => exact .nil
  | cons c chars ih =>
    obtain ⟨hc, hchars⟩ : '\x00' ≠ c ∧ '\x00' ∉ chars := by simpa using hnul
    exact (harmless_escapeChar _ hc.symm).append (ih hchars)

lemma Blanks.harmless (b : Blanks) : Harmless b.chars := by
  have hclass : special.all (fun d => !(isBlank d && d != '\n')) = true := by decide
  refine harmless_of_class hclass fun c hc => ?_
  obtain ⟨hblank, hbreak⟩ := b.blank c hc
  simp [hblank, hbreak]

end Written

end TreeQuery
