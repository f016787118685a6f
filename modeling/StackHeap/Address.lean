import StackHeap.Number.Shortest

/-! # Address tokens

Addresses are printable tokens computed from a numeric seed.

* **Shape.**  The marker `0x`, a minus sign for a negative seed, the whole part in base 36, and
  for a seed with a fraction a point and the shortest decimal digits of the fraction.  The two
  zeros share the token `0x0`; infinities and not-a-number have tokens of their own.
* **Whole parts.**  Below `2 ^ 128` the numeral is exact (`numeral36`).  From there on each
  division by 36 is rounded to a binary64 number before the next digit is taken
  (`roundedNumeral36`).
* **Fresh addresses.**  A supply counts the addresses handed out; the next one has the seed one
  past the count (`Supply.next`), so the token of zero is never handed out. -/

namespace StackHeap

open Number

/-- A digit in base 36: `0` to `9`, then `a` to `z`. -/
def digit36 (d : Nat) : Char :=
  if d < 10 then Char.ofNat ('0'.toNat + d) else Char.ofNat ('a'.toNat + (d - 10))

/-- The base-36 numeral of a number, without leading zeros. -/
def numeral36 (n : Nat) : List Char :=
  if n < 36 then [digit36 n] else numeral36 (n / 36) ++ [digit36 (n % 36)]
decreasing_by omega

/-- The whole part of the binary64 number nearest to `n / 36`. -/
def roundedQuotient36 (n : Nat) : Nat := nearest (n * unitsPerOne) 36 / unitsPerOne

theorem roundedQuotient36_lt {n : Nat} (h : roundedQuotient36 n ≠ 0) : roundedQuotient36 n < n := by
  have ho := unitsPerOne_pos
  have hb := nearest_le (n * unitsPerOne) 36
  have h1 : unitsPerOne ≤ nearest (n * unitsPerOne) 36 := by
    rcases Nat.lt_or_ge (nearest (n * unitsPerOne) 36) unitsPerOne with hl | hg
    · exact absurd (Nat.div_eq_of_lt hl) h
    · exact hg
  have h2 := one_lt_unitsPerOne
  exact (Nat.div_lt_iff_lt_mul ho).2 (by omega)

/-- The base-36 digits of a number when every quotient is rounded. -/
def roundedNumeral36 (n : Nat) : List Char :=
  if h : roundedQuotient36 n = 0 then [digit36 (n % 36)]
  else roundedNumeral36 (roundedQuotient36 n) ++ [digit36 (n % 36)]
termination_by n
decreasing_by exact roundedQuotient36_lt h

/-- The whole part of a token. -/
def wholeNumeral (n : Nat) : List Char :=
  if n < pow2 128 then numeral36 n else roundedNumeral36 n

/-- The digits of a fraction after the point. -/
def fractionNumeral (m : Magnitude) : List Char := m.shortest.positional.drop 2

/-- A printable address. -/
structure Address where
  token : String
deriving DecidableEq, Repr, Inhabited

namespace Address

/-- The token of a seed after its marker. -/
def body : Binary64 → List Char
  | .nan => "nan".toList
  | .infinite negative => (if negative then ['-'] else []) ++ "inf".toList
  | .finite negative m =>
    (if negative && m.units != 0 then ['-'] else []) ++ wholeNumeral m.whole ++
      (if m.fraction.units = 0 then [] else '.' :: fractionNumeral m.fraction)

/-- The address of a seed. -/
def ofSeed (seed : Binary64) : Address := ⟨String.ofList ('0' :: 'x' :: body seed)⟩

/-- The address handed out as the `k`-th. -/
def nth (k : Nat) : Address := ofSeed (.ofNat k)

/-- A supply of fresh addresses. -/
structure Supply where
  /-- How many addresses were handed out. -/
  used : Nat := 0
deriving DecidableEq, Repr, Inhabited

namespace Supply

/-- The next fresh address. -/
def next (s : Supply) : Address := nth (s.used + 1)

/-- The supply after handing out its next address. -/
def advance (s : Supply) : Supply := ⟨s.used + 1⟩

end Supply

end Address

end StackHeap
