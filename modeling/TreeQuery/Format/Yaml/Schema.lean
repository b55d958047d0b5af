import TreeQuery.Text.Numeral
import TreeQuery.Format.Yaml.Value

/-!
# What scalars stand for

A plain scalar may be a null, a switch, a number or a text. Numbers are decimal or start with `0x`,
`0o` or `0b`; digits with a needless zero before them are a text, as is a number with a fraction or
an exponent that is too large for double precision. All other scalars are texts unless a tag says
what they are.
-/

namespace TreeQuery.Yaml

inductive Atom where
  | null
  | switch (on : Bool)
  | count (n : Nat)
  | minus (n : Nat)
  /-- A number with a fraction or an exponent, or none at all. -/
  | real
  | text (s : String)
  deriving Repr, DecidableEq, Inhabited

def isNull (text : String) : Bool := ["null", "Null", "NULL", "~"].contains text

def switch? (text : String) : Option Bool :=
  if ["true", "True", "TRUE"].contains text then some true
  else if ["false", "False", "FALSE"].contains text then some false
  else none

/-! ## Whole numbers -/

/-- The number written by digits of a base; `none` on an empty run. -/
def ofDigits? (base : Nat) (digits : List Char) : Option Nat :=
  if digits.isEmpty || !digits.all (fun c => isHexDigit c && hexValue c < base) then none
  else some (digits.foldl (fun n c => base * n + hexValue c) 0)

def magnitude? : List Char → Option Nat
  | '0' :: 'x' :: digits => ofDigits? 16 digits
  | '0' :: 'o' :: digits => ofDigits? 8 digits
  | '0' :: 'b' :: digits => ofDigits? 2 digits
  | digits => ofDigits? 10 digits

def hasNeedlessZero : List Char → Bool
  | '0' :: c :: rest => (c :: rest).all Char.isDigit
  | _ => false

def dropPlus : List Char → List Char
  | '+' :: rest => rest
  | text => text

def count? (text : List Char) : Option Nat :=
  let digits := dropPlus text
  if hasNeedlessZero digits then none else magnitude? digits

def minus? : List Char → Option Nat
  | '-' :: digits => if hasNeedlessZero digits then none else magnitude? digits
  | _ => none

/-- What a whole number stands for: `none` inside if it takes more than 64 bits but at most 128.
Still larger ones are no whole numbers. -/
def whole? (text : List Char) : Option (Option Atom) :=
  match count? text, minus? text with
  | some n, _ =>
    if n < Nat.pow 2 64 then some (some (.count n))
    else if n < Nat.pow 2 128 then some none
    else none
  | none, some n =>
    if n ≤ Nat.pow 2 63 then some (some (.minus n))
    else if n ≤ Nat.pow 2 127 then some none
    else none
  | none, none => none

/-! ## Numbers of double precision -/

/-- From here on numbers round to infinity. -/
def doubleLimit : Nat := Nat.pow 2 1024 - Nat.pow 2 970

/-- Whether `digits * 10 ^ exponent` rounds to a finite number. -/
def isFinite (digits : Nat) (exponent : Int) : Bool :=
  let width : Int := (Nat.toDigits 10 digits).length
  if digits = 0 ∨ width + exponent ≤ 308 then true
  else if 309 < width + exponent then false
  else if 0 ≤ exponent then digits * Nat.pow 10 exponent.toNat < doubleLimit
  else digits < doubleLimit * Nat.pow 10 (-exponent).toNat

def exponent? (text : List Char) : Option Int :=
  match text with
  | '-' :: digits => (decimal? digits).map fun n => -(n : Int)
  | digits => (decimal? (dropPlus digits)).map Int.ofNat

/-- Whether a text without sign is a finite number in decimal notation. -/
def isDecimal (text : List Char) : Bool :=
  let whole := text.takeWhile Char.isDigit
  let rest := text.drop whole.length
  let (fraction, rest) := match rest with
    | '.' :: rest => rest.span Char.isDigit
    | rest => ([], rest)
  let exponent := match rest with
    | [] => some 0
    | c :: rest => if c == 'e' || c == 'E' then exponent? rest else none
  match decimal? (whole ++ fraction), exponent with
  | some digits, some e => isFinite digits (e - fraction.length)
  | _, _ => false

/-- Whether a text is a number with a fraction or an exponent, an infinity or no number by name. -/
def isReal (text : List Char) : Bool :=
  let isUnsigned (text : List Char) : Bool :=
    [".inf", ".Inf", ".INF"].contains (String.ofList text) || isDecimal text
  match text with
  | '+' :: rest => isUnsigned rest
  | '-' :: rest => isUnsigned rest
  | rest => isUnsigned rest || [".nan", ".NaN", ".NAN"].contains (String.ofList rest)

/-! ## Scalars -/

/-- What a plain scalar stands for; `none` for a whole number that is too large. -/
def Atom.ofPlain (text : String) : Option Atom :=
  let chars := text.toList
  if text.isEmpty || isNull text then some .null
  else
    match switch? text with
    | some on => some (.switch on)
    | none =>
      match whole? chars with
      | some number => number
      | none =>
        let unsigned := match chars with
          | '-' :: rest => rest
          | rest => dropPlus rest
        if !hasNeedlessZero unsigned && isReal chars then some .real else some (.text text)

def typeTag (name : String) : String := "tag:yaml.org,2002:" ++ name

/-- What a scalar stands for; `none` if it is not what its tag says, or if its tag is one that only
its writer knows. -/
def Atom.ofScalar (tag : Option String) (style : Style) (text : String) : Option Atom :=
  match tag with
  | none => if style = .plain then ofPlain text else some (.text text)
  | some tag =>
    if tag.startsWith "!" then none
    else if tag = typeTag "bool" then (switch? text).map .switch
    else if tag = typeTag "int" then (whole? text.toList).join
    else if tag = typeTag "float" then if isReal text.toList then some .real else none
    else if tag = typeTag "null" then if isNull text then some .null else none
    else some (.text text)

end TreeQuery.Yaml
