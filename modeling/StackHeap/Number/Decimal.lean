import StackHeap.Number.Binary64
import StackHeap.Number.Digits

/-! # Decimal notation

A decimal is a natural coefficient scaled by a power of ten.  This module reads the numerals of
the command language, rounds decimals to binary64 numbers, and lays decimals out as text.

* **Reading** (`ofNumeral?`).  Digits with an optional point, at least one digit in all, then
  optionally `e` or `E`, a sign and digits.  A numeral carries no sign of its own.
* **Rounding** (`toBinary64`).  Always to the nearest number.  A nonzero decimal of `n` digits
  scaled by `10 ^ e` lies in `[10 ^ (e + n - 1), 10 ^ (e + n))`, so one with `309 < e + n` is
  past the largest number and one with `e + n < -323` below half the smallest; only between
  the two are the powers of ten computed.
* **Layout.**  `positional` writes no exponent and at least one digit on both sides of the
  point; `scientific` writes one digit before the point and the exponent after `e`. -/

namespace StackHeap.Number

/-- The number `coefficient * 10 ^ exponent`. -/
structure Decimal where
  coefficient : Nat
  exponent : Int
deriving DecidableEq, Repr, Inhabited

namespace Decimal

/-! ### Reading -/

/-- The exponent after its letter: digits, with an optional sign. -/
def readExponent? (cs : List Char) : Option Int :=
  let (negative, digits) := match cs with
    | '-' :: r => (true, r)
    | '+' :: r => (false, r)
    | r => (false, r)
  if digits.isEmpty || !digits.all Char.isDigit then none
  else
    let n : Int := ofDecimalDigits digits
    some (if negative then -n else n)

/-- The fraction digits after a point, and what follows them. -/
def readFraction : List Char → List Char × List Char
  | '.' :: r => r.span Char.isDigit
  | r => ([], r)

/-- The decimal that an unsigned numeral denotes. -/
def ofNumeral? (cs : List Char) : Option Decimal :=
  let (whole, r) := cs.span Char.isDigit
  let (fraction, r) := readFraction r
  let coefficient := ofDecimalDigits (whole ++ fraction)
  if whole.isEmpty && fraction.isEmpty then none
  else match r with
    | [] => some ⟨coefficient, -fraction.length⟩
    | c :: r =>
      if c = 'e' ∨ c = 'E' then
        (readExponent? r).map fun e => ⟨coefficient, e - fraction.length⟩
      else none

/-! ### Rounding -/

/-- The binary64 number nearest to a decimal, with the given sign. -/
def toBinary64 (negative : Bool) (d : Decimal) : Binary64 :=
  let top := d.exponent + (decimalDigits d.coefficient).length
  if d.coefficient = 0 ∨ top < -323 then .finite negative .zero
  else if 309 < top then .infinite negative
  else if 0 ≤ d.exponent then .ofRatio negative (d.coefficient * pow10 d.exponent.toNat) 1
  else .ofRatio negative d.coefficient (pow10 (-d.exponent).toNat)

/-! ### Layout -/

/-- Digits around a point, without an exponent. -/
def positional (d : Decimal) : List Char :=
  let digits := decimalDigits d.coefficient
  if 0 ≤ d.exponent then digits ++ List.replicate d.exponent.toNat '0' ++ ['.', '0']
  else
    let places := (-d.exponent).toNat
    let padded := List.replicate (places + 1 - digits.length) '0' ++ digits
    padded.take (padded.length - places) ++ '.' :: padded.drop (padded.length - places)

/-- The power of ten of the leading digit. -/
def leadingExponent (d : Decimal) : Int :=
  d.exponent + (decimalDigits d.coefficient).length - 1

/-- One digit, the others after a point, and the exponent of the leading digit. -/
def scientific (d : Decimal) : List Char :=
  let mantissa := match decimalDigits d.coefficient with
    | c :: r@(_ :: _) => c :: '.' :: r
    | digits => digits
  mantissa ++ 'e' :: (integerText d.leadingExponent).toList

end Decimal

end StackHeap.Number
