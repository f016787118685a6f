import StackHeap.Number.Decimal

/-! # The shortest decimal that reads back

A binary64 number is written with the fewest significant digits whose decimal is rounded to the
same number again, and of the decimals with that many digits the nearest one.

* **The interval.**  The reals that round to a magnitude reach half-way to its neighbours; the
  ends belong to it exactly when the significand is even.  Below a power of two the neighbour
  is only half as far (`gapBelow`).  Everything is counted in half units, so the ends are
  natural numbers.
* **The grids.**  With `n` digits, the decimals around the value lie on the multiples of a
  power of ten, and if any of them is in the interval then so is one of the value's two
  neighbours.  The first grid with a hit gives the digits (`shortest`); of two hits the nearer
  one is taken, and the larger on a tie.  Seventeen digits always suffice.
* **The two texts.**  `Binary64.text` is positional from `10 ^ -4` to below `10 ^ 16` and
  scientific outside; `Binary64.scientificText` is scientific throughout. -/

namespace StackHeap.Number

namespace Magnitude

/-- The distance to the next larger magnitude, in units. -/
def gapAbove (m : Magnitude) : Nat := pow2 m.exponent

/-- The distance to the next smaller magnitude, in units. -/
def gapBelow (m : Magnitude) : Nat :=
  if m.significand = pow2 52 ∧ 0 < m.exponent then pow2 (m.exponent - 1) else pow2 m.exponent

/-- The power of ten just above a nonzero magnitude: `10 ^ (m.ceilingExponent - 1) ≤ m` and
`m < 10 ^ m.ceilingExponent`. -/
def ceilingExponent (m : Magnitude) : Int :=
  if unitsPerOne ≤ m.units then (decimalDigits m.whole).length
  else 1 - (decimalDigits ((unitsPerOne - 1) / m.units)).length

/-- Whether `num / den` half units round to the magnitude. -/
def readsBack (m : Magnitude) (num den : Nat) : Bool :=
  let low := (2 * m.units - m.gapBelow) * den
  let high := (2 * m.units + m.gapAbove) * den
  if m.significand % 2 = 0 then decide (low ≤ num ∧ num ≤ high)
  else decide (low < num ∧ num < high)

/-- The decimal on the grid of `10 ^ exponent` that reads back, the nearer one of two. -/
def onGrid? (m : Magnitude) (exponent : Int) : Option Decimal :=
  let step := 2 * unitsPerOne * pow10 exponent.toNat
  let den := pow10 (-exponent).toNat
  let value := 2 * m.units * den
  let below := value / step
  let above := below + 1
  let hitBelow := m.readsBack (below * step) den
  let hitAbove := m.readsBack (above * step) den
  let nearBelow := decide (value - below * step < above * step - value)
  if hitBelow && (nearBelow || !hitAbove) then some ⟨below, exponent⟩
  else if hitAbove then some ⟨above, exponent⟩
  else none

/-- The shortest decimal that reads back as the magnitude. -/
def shortest (m : Magnitude) : Decimal :=
  if m.units = 0 then ⟨0, 0⟩
  else
    let top := m.ceilingExponent
    let hit := (List.range' 1 17).findSome? fun (n : Nat) => (m.onGrid? (top - n)).map fun d =>
      if d.coefficient = pow10 n then ⟨1, top⟩ else d
    hit.getD ⟨0, 0⟩

end Magnitude

namespace Binary64

/-- A sign in front of a text. -/
def signed (negative : Bool) (text : List Char) : String :=
  String.ofList (if negative then '-' :: text else text)

/-- The text of a number: positional from `10 ^ -4` to below `10 ^ 16`. -/
def text : Binary64 → String
  | .nan => "NaN"
  | .infinite negative => signed negative "inf".toList
  | .finite negative m =>
    let d := m.shortest
    let e := d.leadingExponent
    signed negative (if m.units = 0 ∨ (-4 ≤ e ∧ e < 16) then d.positional else d.scientific)

/-- The text of a number with its exponent always written. -/
def scientificText : Binary64 → String
  | .nan => "NaN"
  | .infinite negative => signed negative "inf".toList
  | .finite negative m => signed negative m.shortest.scientific

end Binary64

end StackHeap.Number
