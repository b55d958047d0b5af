/-!
# Numerals of bounded integers

Decimal numerals as they are read from pseudo-class arguments and settings. A numeral is an
optional sign and at least one ASCII digit; a value outside the range of the integer type is
refused, whatever its length.
-/

namespace TreeQuery

/-- The number written by a run of decimal digits; `none` on an empty run or any other character. -/
def decimal? (digits : List Char) : Option Nat :=
  if digits.isEmpty then none
  else
    digits.foldlM (fun n c => if c.isDigit then some (10 * n + (c.toNat - '0'.toNat)) else none) 0

def minSigned : Int := -9223372036854775808

def maxSigned : Int := 9223372036854775807

def maxUnsigned : Nat := 18446744073709551615

def signed? (text : List Char) : Option Int :=
  let value : Option Int := match text with
    | '-' :: digits => (decimal? digits).map fun n => -(n : Int)
    | '+' :: digits => (decimal? digits).map Int.ofNat
    | digits => (decimal? digits).map Int.ofNat
  value.filter fun n => minSigned ≤ n && n ≤ maxSigned

/-- The characters that Unicode counts as white space. -/
def isSpacing (c : Char) : Bool :=
  let n := c.toNat
  (9 ≤ n && n ≤ 13) || n == 0x20 || n == 0x85 || n == 0xa0 || n == 0x1680 ||
    (0x2000 ≤ n && n ≤ 0x200a) || n == 0x2028 || n == 0x2029 || n == 0x202f || n == 0x205f ||
    n == 0x3000

def trimSpacing (text : List Char) : List Char :=
  ((text.dropWhile isSpacing).reverse.dropWhile isSpacing).reverse

end TreeQuery
