import Mathlib.Tactic.Lemma
import TreeQuery.Proofs.Selector.Written.Grammar

/-!
# Names that are written and read

An identifier that a name is written as is read to its end and stands for the name, between quotes
too, whatever comes behind it.
-/

namespace TreeQuery

lemma splitHex_of_digits {digits rest : List Char} (hdigits : ∀ c ∈ digits, isHexDigit c = true)
    (hrest : ∀ c ∈ rest.head?, isHexDigit c = false) :
    ∀ {n : Nat}, digits.length ≤ n → splitHex n (digits ++ rest) = (digits, rest) := by
  induction digits with
  | nil =>
    intro n _
    cases n with
    | zero => cases rest <;> rfl
    | succ n =>
      cases rest with
      | nil => rfl
      | cons c rest => simp [splitHex, hrest c rfl]
  | cons d digits ih =>
    intro n hlen
    cases n with
    | zero => simp at hlen
    | succ n =>
      have hmore := ih (fun c hc => hdigits c (List.mem_cons_of_mem d hc))
        (Nat.le_of_succ_le_succ hlen)
      simp [splitHex, hdigits d List.mem_cons_self, hmore]

/-- The hexadecimal code of an ASCII character. -/
theorem code_of_ascii {c : Char} (hc : isAscii c = true) :
    (∀ d ∈ Nat.toDigits 16 c.toNat, isHexDigit d = true) ∧
      (Nat.toDigits 16 c.toNat).length ≤ 6 ∧ hexNumber (Nat.toDigits 16 c.toNat) = c.toNat := by
  have hcodes : ∀ n : Fin 128, (Nat.toDigits 16 n).all isHexDigit = true ∧
      (Nat.toDigits 16 n).length ≤ 6 ∧ hexNumber (Nat.toDigits 16 n) = n := by decide +kernel
  obtain ⟨hdigits, hcode⟩ := hcodes ⟨c.toNat, by simpa [isAscii] using hc⟩
  exact ⟨List.all_eq_true.mp hdigits, hcode⟩

lemma charOfCode_toNat {c : Char} (hc : c ≠ '\x00') : charOfCode c.toNat = c := by
  have hne : c.toNat ≠ 0 := fun h => hc (Char.ext (UInt32.toNat_inj.mp h))
  rw [charOfCode, if_pos ⟨hne, c.valid⟩]
  exact Char.ofNat_toNat c

/-- A blank behind the digits of an escape belongs to it. -/
theorem escape?_of_digits {digits : List Char} (hne : digits ≠ [])
    (hdigits : ∀ c ∈ digits, isHexDigit c = true) (hlen : digits.length ≤ 6) (rest : List Char) :
    escape? (digits ++ ' ' :: rest) =
        some ⟨digits ++ [' '], charOfCode (hexNumber digits), rest⟩ ∧
      escape? digits = some ⟨digits, charOfCode (hexNumber digits), []⟩ := by
  have hblank : splitHex 6 (digits ++ ' ' :: rest) = (digits, ' ' :: rest) :=
    splitHex_of_digits hdigits (by simp; decide) hlen
  have hend : splitHex 6 (digits ++ []) = (digits, []) :=
    splitHex_of_digits hdigits (by simp) hlen
  rw [List.append_nil] at hend
  obtain ⟨d, more, rfl⟩ := List.exists_cons_of_ne_nil hne
  constructor
  · rw [escape?, hblank]
    rfl
  · rw [escape?, hend]

namespace Written

/-- A character stands for itself in an identifier, or for it an escape that is read back. -/
theorem escapeChar_cases (last : Bool) {c : Char} (hc : c ≠ '\x00') :
    (escapeChar last c = [c] ∧ c ≠ '\\' ∧ (isWordChar c || !isAscii c) = true) ∨
      (isWordChar c || !isAscii c) = false ∧
      ∃ digits, digits ≠ [] ∧ (∀ d ∈ digits, isHexDigit d = true) ∧
        escapeChar last c = '\\' :: digits ++ (if last then [] else [' ']) ∧
        ∀ rest, (last = true → rest = []) →
          escape? (digits ++ (if last then [] else [' ']) ++ rest) =
            some ⟨digits ++ if last then [] else [' '], c, rest⟩ := by
  cases hplain : isWordChar c || !isAscii c with
  | true =>
    refine .inl ⟨by rw [escapeChar, hplain, if_pos rfl], ?_, rfl⟩
    rintro rfl
    exact absurd hplain (by decide)
  | false =>
    have hascii : isAscii c = true := by
      obtain ⟨-, hascii⟩ := Bool.or_eq_false_iff.mp hplain
      simpa using hascii
    obtain ⟨hdigits, hlen, hcode⟩ := code_of_ascii hascii
    refine .inr ⟨rfl, _, Nat.toDigits_ne_nil, hdigits, by rw [escapeChar, hplain]; rfl,
      fun rest hlast => ?_⟩
    obtain ⟨hblank, hend⟩ := escape?_of_digits Nat.toDigits_ne_nil hdigits hlen rest
    rw [hcode, charOfCode_toNat hc] at hblank hend
    cases last with
    | true =>
      obtain rfl := hlast rfl
      simpa using hend
    | false => simpa using hblank

variable {last : Bool} {c : Char} {chars rest : List Char}

lemma identifierUnit?_escapeChar (hc : c ≠ '\x00') (hlast : last = true → rest = []) :
    identifierUnit? (escapeChar last c ++ rest) = some (escapeChar last c, rest) := by
  obtain ⟨heq, hslash, hplain⟩ | ⟨-, digits, -, -, heq, hescape⟩ := escapeChar_cases last hc
  · rw [heq, List.singleton_append, identifierUnit?, if_neg hslash, if_pos hplain]
  · rw [heq]
    simp only [List.cons_append, identifierUnit?, if_true, hescape rest hlast, Option.map_some]

lemma unescape_escapeChar (hc : c ≠ '\x00') (hlast : last = true → rest = []) :
    unescape (escapeChar last c ++ rest) = c :: unescape rest := by
  obtain ⟨heq, hslash, -⟩ | ⟨-, digits, -, -, heq, hescape⟩ := escapeChar_cases last hc
  · rw [heq, List.singleton_append, unescape, if_neg hslash]
  · rw [heq, List.cons_append, List.cons_append, unescape, if_pos rfl]
    split
    · rename_i e he
      obtain rfl := Option.some.inj ((hescape rest hlast).symm.trans he)
      rfl
    · rename_i he
      cases (hescape rest hlast).symm.trans he

lemma escapeChar_ne_nil (last : Bool) (c : Char) : escapeChar last c ≠ [] := by
  unfold escapeChar
  split <;> simp

lemma spell_ne_nil (hne : chars ≠ []) : spell last chars ≠ [] := by
  obtain ⟨c, chars, rfl⟩ := List.exists_cons_of_ne_nil hne
  rw [spell]
  exact List.append_ne_nil_of_left_ne_nil (escapeChar_ne_nil _ c) _

/-- What is written behind the last character of a text that ends without a blank. -/
theorem spell_append_eq_nil (hlast : last = true → rest = []) :
    (last && chars.isEmpty) = true → spell last chars ++ rest = [] := by
  intro h
  obtain ⟨h, hchars⟩ := Bool.and_eq_true_iff.mp h
  rw [List.isEmpty_iff.mp hchars, spell, hlast h, List.append_nil]

lemma splitIdentifier_stop (hstop : identifierUnit? rest = none) :
    splitIdentifier rest = ([], rest) := by
  rw [splitIdentifier]
  split
  · rfl
  · rename_i heq
    cases hstop.symm.trans heq

lemma identifier?_eq_none (hstop : identifierUnit? rest = none) : identifier? rest = none := by
  rw [identifier?, splitIdentifier_stop hstop]

/-- A name is read up to what does not go on with it. -/
theorem splitIdentifier_spell (hnul : '\x00' ∉ chars) (hlast : last = true → rest = [])
    (hstop : identifierUnit? rest = none) :
    splitIdentifier (spell last chars ++ rest) = (spell last chars, rest) := by
  induction chars with
  | nil => rw [spell, List.nil_append, splitIdentifier_stop hstop]
  | cons c chars ih =>
    obtain ⟨hc, hchars⟩ : '\x00' ≠ c ∧ '\x00' ∉ chars := by simpa using hnul
    have hunit : identifierUnit?
        (escapeChar (last && chars.isEmpty) c ++ (spell last chars ++ rest)) =
        some (escapeChar (last && chars.isEmpty) c, spell last chars ++ rest) :=
      identifierUnit?_escapeChar hc.symm (spell_append_eq_nil hlast)
    rw [spell, List.append_assoc, splitIdentifier]
    split
    · rename_i heq
      cases hunit.symm.trans heq
    · rename_i unit after heq
      obtain ⟨rfl, rfl⟩ := Prod.mk.inj (Option.some.inj (hunit.symm.trans heq))
      rw [ih hchars]

lemma identifier?_spell (hnul : '\x00' ∉ chars) (hne : chars ≠ [])
    (hlast : last = true → rest = []) (hstop : identifierUnit? rest = none) :
    identifier? (spell last chars ++ rest) = some (spell last chars, rest) := by
  have hspell : spell last chars ≠ [] := spell_ne_nil hne
  rw [identifier?, splitIdentifier_spell hnul hlast hstop]
  obtain ⟨c, text, heq⟩ := List.exists_cons_of_ne_nil hspell
  rw [heq]

/-- The escapes in a name stand for what was escaped. -/
theorem unescape_spell (hnul : '\x00' ∉ chars) : unescape (spell last chars) = chars := by
  induction chars with
  | nil => rw [spell, unescape]
  | cons c chars ih =>
    obtain ⟨hc, hchars⟩ : '\x00' ≠ c ∧ '\x00' ∉ chars := by simpa using hnul
    have hmore : (last && chars.isEmpty) = true → spell last chars = [] := fun h =>
      (List.append_eq_nil_iff.mp (spell_append_eq_nil (fun _ => rfl) h)).1
    rw [spell, unescape_escapeChar hc.symm hmore, ih hchars]

end Written

end TreeQuery
