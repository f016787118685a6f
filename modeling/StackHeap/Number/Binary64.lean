import StackHeap.Number.Power

/-! # Binary64 numbers, exactly

The floating numbers of the simulator are the values of IEEE 754 binary64, held exactly and
worked on with natural-number arithmetic only.

* **Magnitudes.** The smallest positive number is one *unit*, `2 ^ -1074`, and every finite
  magnitude is a whole number of units: a significand below `2 ^ 53` times a power of two,
  below `2 ^ 2098` units (`Magnitude`).  Two magnitudes are the same number exactly when
  their units agree, and they are ordered as their units are.
* **Numbers.** A `Binary64` is a signed magnitude, an infinity or not a number.  There is one
  `nan`; the two zeros are two values.
* **Rounding.** `ofRatio` gives the number nearest to a quotient, a tie going to the even
  significand, and infinity from the first value that would round past the largest number.
  All other conversions go through it.
* **Parts.** The whole part and the fraction of a magnitude are a quotient and a remainder
  by `2 ^ 1074`, without rounding. -/

namespace StackHeap.Number

/-! ### Rounding to 53 significant bits -/

/-- The quotient `num / den` rounded to the nearest integer, a half to the even one. -/
def roundHalfEven (num den : Nat) : Nat :=
  let q := num / den
  let r := num % den
  if 2 * r < den then q else if den < 2 * r then q + 1 else q + q % 2

theorem roundHalfEven_le (num den : Nat) : roundHalfEven num den ≤ num / den + 1 := by
  unfold roundHalfEven
  dsimp only
  split
  · omega
  · split <;> omega

/-- The spacing of numbers around `n`: the power of two that leaves 53 significant bits. -/
def spacing (n : Nat) : Nat := pow2 (n.log2 - 52)

theorem spacing_pos (n : Nat) : 0 < spacing n := pow2_pos _

theorem div_spacing_lt (n : Nat) : n / spacing n < pow2 53 := by
  refine (Nat.div_lt_iff_lt_mul (spacing_pos n)).2 ?_
  refine Nat.lt_of_lt_of_le (lt_pow2_log2_succ n) ?_
  rw [spacing, ← pow2_add]
  exact pow2_le_pow2 (by omega)

theorem spacing_le (n : Nat) : spacing n ≤ n + 1 := by
  unfold spacing
  by_cases h : n = 0
  · subst h; decide
  · have h1 : pow2 (n.log2 - 52) ≤ pow2 n.log2 := pow2_le_pow2 (by omega)
    have h2 := pow2_log2_le h
    omega

/-- The number of units nearest to `num / den` among those with 53 significant bits. -/
def nearest (num den : Nat) : Nat :=
  let s := spacing (num / den)
  roundHalfEven num (den * s) * s

/-- A significand below `2 ^ 53` times a power of two. -/
def IsShort (n : Nat) : Prop := ∃ m e, m < pow2 53 ∧ n = m * pow2 e

theorem isShort_mod {n : Nat} (h : IsShort n) (k : Nat) : IsShort (n % pow2 k) := by
  obtain ⟨m, e, hm, rfl⟩ := h
  by_cases hk : k ≤ e
  · obtain ⟨j, rfl⟩ := Nat.exists_eq_add_of_le hk
    exact ⟨0, 0, by decide, by rw [pow2_add, Nat.mul_left_comm, Nat.mul_mod_right, Nat.zero_mul]⟩
  · refine ⟨m % pow2 (k - e), e, Nat.lt_of_le_of_lt (Nat.mod_le _ _) hm, ?_⟩
    obtain ⟨j, rfl⟩ := Nat.exists_eq_add_of_le (Nat.le_of_not_le hk)
    rw [Nat.add_sub_cancel_left, pow2_add, Nat.mul_comm (pow2 e), Nat.mul_mod_mul_right]

theorem isShort_nearest (num den : Nat) : IsShort (nearest num den) := by
  have hlt : roundHalfEven num (den * spacing (num / den)) ≤ pow2 53 := by
    refine Nat.le_trans (roundHalfEven_le _ _) ?_
    rw [← Nat.div_div_eq_div_mul]
    exact div_spacing_lt _
  rcases Nat.lt_or_eq_of_le hlt with h | h
  · exact ⟨_, _, h, rfl⟩
  · refine ⟨pow2 52, (num / den).log2 - 52 + 1, by decide, ?_⟩
    rw [nearest, h, spacing, pow2_succ, pow2_succ ((num / den).log2 - 52), Nat.mul_right_comm,
      Nat.mul_assoc]

theorem nearest_le (num den : Nat) : nearest num den ≤ 2 * (num / den) + 1 := by
  have hs := spacing_pos (num / den)
  have h1 := roundHalfEven_le num (den * spacing (num / den))
  rw [← Nat.div_div_eq_div_mul] at h1
  have h2 := Nat.div_mul_le_self (num / den) (spacing (num / den))
  have h3 := spacing_le (num / den)
  have h4 := Nat.mul_le_mul_right (spacing (num / den)) h1
  rw [Nat.add_mul, Nat.one_mul] at h4
  simp only [nearest]
  omega

/-! ### Magnitudes -/

/-- The units in one. -/
def unitsPerOne : Nat := pow2 1074

/-- The first number of units past the largest finite magnitude. -/
def unitLimit : Nat := pow2 2098

theorem one_lt_unitsPerOne : 1 < unitsPerOne := one_lt_pow2 (by decide)

theorem unitsPerOne_pos : 0 < unitsPerOne := Nat.lt_trans Nat.zero_lt_one one_lt_unitsPerOne

theorem unitLimit_pos : 0 < unitLimit := pow2_pos _

/-- A finite magnitude, counted in units of `2 ^ -1074`. -/
structure Magnitude where
  units : Nat
  short : IsShort units
  small : units < unitLimit
deriving DecidableEq

namespace Magnitude

@[ext] theorem ext {a b : Magnitude} (h : a.units = b.units) : a = b := by
  cases a; cases b; simp_all

instance : Repr Magnitude where
  reprPrec m _ := repr m.units

instance : LE Magnitude where
  le a b := a.units ≤ b.units

instance (a b : Magnitude) : Decidable (a ≤ b) := inferInstanceAs (Decidable (a.units ≤ b.units))

/-- The magnitude of zero. -/
def zero : Magnitude := ⟨0, ⟨0, 0, by decide, rfl⟩, unitLimit_pos⟩

instance : Inhabited Magnitude := ⟨zero⟩

/-- The magnitude `significand * 2 ^ exponent` units, where that is one. -/
def ofParts? (significand exponent : Nat) : Option Magnitude :=
  if h : significand < pow2 53 ∧ significand * pow2 exponent < unitLimit then
    some ⟨significand * pow2 exponent, ⟨_, _, h.1, rfl⟩, h.2⟩
  else none

/-- The largest finite magnitude. -/
def largest : Magnitude := (ofParts? (pow2 53 - 1) 2045).getD zero

/-- The exponent of the power of two that scales the significand. -/
def exponent (m : Magnitude) : Nat := m.units.log2 - 52

/-- The significand: 53 bits, or fewer for the magnitudes next to zero. -/
def significand (m : Magnitude) : Nat := m.units / pow2 m.exponent

/-- The largest whole number within the magnitude. -/
def whole (m : Magnitude) : Nat := m.units / unitsPerOne

/-- What the whole part leaves over. -/
def fraction (m : Magnitude) : Magnitude where
  units := m.units % unitsPerOne
  short := isShort_mod m.short _
  small := Nat.lt_of_le_of_lt (Nat.mod_le _ _) m.small

end Magnitude

/-! ### Numbers -/

/-- A binary64 number. -/
inductive Binary64 where
  | nan
  | infinite (negative : Bool)
  | finite (negative : Bool) (magnitude : Magnitude)
deriving DecidableEq, Repr

namespace Binary64

instance : Inhabited Binary64 := ⟨.finite false .zero⟩

/-- The number nearest to `num / den` units. -/
def ofUnits (negative : Bool) (num den : Nat) : Binary64 :=
  if h : nearest num den < unitLimit then
    .finite negative ⟨nearest num den, isShort_nearest num den, h⟩
  else .infinite negative

/-- The number nearest to `num / den`. -/
def ofRatio (negative : Bool) (num den : Nat) : Binary64 := ofUnits negative (num * unitsPerOne) den

/-- The number nearest to a natural number. -/
def ofNat (n : Nat) : Binary64 := ofRatio false n 1

/-- The number nearest to an integer. -/
def ofInt (n : Int) : Binary64 := ofRatio (n < 0) n.natAbs 1

/-- The number with the other sign. -/
def negate : Binary64 → Binary64
  | .nan => .nan
  | .infinite s => .infinite (!s)
  | .finite s m => .finite (!s) m

/-- Whether the number is finite and its magnitude at most `bound`. -/
def isWithin (bound : Magnitude) : Binary64 → Bool
  | .finite _ m => decide (m ≤ bound)
  | _ => false

/-! ### The interchange format

Sixty-four bits: the sign, eleven bits of exponent, and fifty-two of significand, whose leading
bit is implied unless the exponent is zero. -/

/-- The number that a word of sixty-four bits stands for. -/
def ofWord (word : Nat) : Binary64 :=
  let negative := word / pow2 63 % 2 = 1
  let exponent := word / pow2 52 % pow2 11
  let low := word % pow2 52
  if exponent = 2047 then
    if low = 0 then .infinite negative else .nan
  else if exponent = 0 then
    (Magnitude.ofParts? low 0).elim .nan (.finite negative)
  else
    (Magnitude.ofParts? (pow2 52 + low) (exponent - 1)).elim .nan (.finite negative)

end Binary64

end StackHeap.Number
