/-! # Decimal digits of whole numbers -/

namespace StackHeap.Number

/-- The decimal digits of a natural number. -/
def decimalDigits (n : Nat) : List Char := Nat.toDigits 10 n

/-- The number that a string of decimal digits denotes, leading zeros allowed. -/
def ofDecimalDigits (digits : List Char) : Nat :=
  digits.foldl (fun n c => 10 * n + (c.toNat - '0'.toNat)) 0

/-- The number that a string of decimal digits denotes if it is below a bound.  The digits are read
one by one, and reading stops at the first that takes the number to the bound. -/
def ofDecimalDigitsBelow? (bound : Nat) (digits : List Char) : Option Nat :=
  digits.foldlM (fun n c => some (10 * n + (c.toNat - '0'.toNat)) |>.filter (· < bound)) 0

/-- The text of a natural number. -/
def naturalText (n : Nat) : String := String.ofList (decimalDigits n)

/-- The text of an integer: its digits, after a minus sign if it is negative. -/
def integerText (n : Int) : String :=
  String.ofList (if n < 0 then '-' :: decimalDigits n.natAbs else decimalDigits n.natAbs)

end StackHeap.Number
