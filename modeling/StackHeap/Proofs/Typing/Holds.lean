import StackHeap.Proofs.Value

/-! # What places of a primitive type hold

`Primitive.Holds p v` says that `v` is a value of type `p`: of the right kind, and within the range
or the ceiling of a numeric type.  The checks of literals are not mentioned; that they establish it
is proved about them.

Widening keeps it (`Holds.widen`).  Every integral type and `char` lie far below the ceiling of
`float`, so a rounded conversion stays within. -/

namespace StackHeap

open Number

/-- The values of a primitive type. -/
inductive Primitive.Holds : Primitive → Value → Prop where
  | boolean (b : Bool) : Holds .boolean (.bool b)
  | char (c : Char) : Holds .char (.char c)
  | string (s : String) : Holds .string (.text s)
  | integral {p : Primitive} {bits : Nat} {n : Int} (hb : p.bits? = some bits)
      (hl : -(pow2 (bits - 1) : Int) ≤ n) (hu : n < pow2 (bits - 1)) : Holds p (.int n)
  | floating {p : Primitive} {ceiling m : Magnitude} (negative : Bool)
      (hc : p.ceiling? = some ceiling) (hm : m ≤ ceiling) : Holds p (.float (.finite negative m))

namespace Number

theorem Magnitude.le_refl (m : Magnitude) : m ≤ m := Nat.le_refl m.units

theorem Magnitude.le_trans {a b c : Magnitude} (hab : a ≤ b) (hbc : b ≤ c) : a ≤ c :=
  Nat.le_trans (m := b.units) hab hbc

/-! ### Conversions to floating types -/

theorem le_floatCeiling : pow2 66 * unitsPerOne ≤ Primitive.floatCeiling.units := by decide +kernel

theorem floatCeiling_le_largest : Primitive.floatCeiling ≤ Magnitude.largest := by decide +kernel

/-- Rounding a whole number of up to 64 bits stays within the ceiling of `float`. -/
theorem exists_ofRatio_eq (negative : Bool) {n : Nat} (hn : n ≤ pow2 64) :
    ∃ m : Magnitude, m ≤ Primitive.floatCeiling ∧
      Binary64.ofRatio negative n 1 = .finite negative m := by
  -- Only the order of these numbers counts; they are too large to compute with.
  have key : ∀ x k u c : Nat, x ≤ 2 * k + 1 → k ≤ u → 0 < u → 4 * u ≤ c → x ≤ c := by
    intro x k u c h1 h2 h3 h4
    omega
  have hle : nearest (n * unitsPerOne) 1 ≤ Primitive.floatCeiling.units := by
    have hn1 := nearest_le (n * unitsPerOne) 1
    rw [Nat.div_one] at hn1
    refine key _ _ (pow2 64 * unitsPerOne) _ hn1 (Nat.mul_le_mul_right _ hn)
      (Nat.mul_pos (pow2_pos 64) unitsPerOne_pos) ?_
    have h66 : 4 * pow2 64 = pow2 66 := by decide
    rw [← Nat.mul_assoc, h66]
    exact le_floatCeiling
  have hlt := Nat.lt_of_le_of_lt hle Primitive.floatCeiling.small
  refine ⟨⟨nearest (n * unitsPerOne) 1, isShort_nearest _ _, hlt⟩, hle, ?_⟩
  rw [Binary64.ofRatio, Binary64.ofUnits, dif_pos hlt]

end Number

namespace Primitive

variable {p s t : Primitive} {v : Value}

/-- The floating types reach at least as far as `float`. -/
theorem exists_ceiling?_of_isFloating (h : p.isFloating = true) :
    ∃ c, p.ceiling? = some c ∧ floatCeiling ≤ c := by
  cases p with
  | float => exact ⟨floatCeiling, rfl, Magnitude.le_refl _⟩
  | double => exact ⟨.largest, rfl, floatCeiling_le_largest⟩
  | _ => cases h

/-- What accepts an integral type is a wider integral type or a floating type. -/
theorem integral_of_accepts {b : Nat} (ha : t.accepts s = true) (hb : s.bits? = some b) :
    t.isFloating = true ∨ t.isFloating = false ∧ ∃ c, t.bits? = some c ∧ b ≤ c := by
  cases s <;> cases hb <;> cases t <;>
    first
      | exact .inl rfl
      | exact .inr ⟨rfl, _, rfl, by decide⟩
      | exact absurd ha (by decide)

/-- What accepts a floating type reaches at least as far. -/
theorem ceiling_of_accepts {c : Magnitude} (ha : t.accepts s = true) (hc : s.ceiling? = some c) :
    ∃ d, t.ceiling? = some d ∧ c ≤ d := by
  cases s with
  | float =>
      obtain rfl : floatCeiling = c := Option.some.inj hc
      exact exists_ceiling?_of_isFloating (by cases t <;> first | rfl | exact absurd ha (by decide))
  | double =>
      obtain rfl : Magnitude.largest = c := Option.some.inj hc
      obtain rfl : t = double := by cases t <;> first | rfl | exact absurd ha (by decide)
      exact ⟨.largest, rfl, Magnitude.le_refl _⟩
  | _ => cases hc

theorem bits?_le {b : Nat} (hb : p.bits? = some b) : b ≤ 64 := by
  cases p <;> cases hb <;> decide

/-- A word of 64 bits keeps the integers of every type. -/
theorem bmod_eq_of_bits? {b : Nat} {n : Int} (hb : p.bits? = some b)
    (hl : -(pow2 (b - 1) : Int) ≤ n) (hu : n < pow2 (b - 1)) : n.bmod (pow2 64) = n := by
  have hbits := bits?_le hb
  have h63 : pow2 (b - 1) ≤ pow2 63 := pow2_le_pow2 (by omega)
  have h64 : pow2 64 = pow2 63 * 2 := pow2_succ 63
  exact Int.bmod_eq_of_le (by omega) (by omega)

namespace Holds

theorem isReference_eq_false (h : p.Holds v) : v.isReference = false := by
  cases h <;> rfl

theorem ofRatio (ht : t.isFloating = true) (negative : Bool) {n : Nat} (hn : n ≤ pow2 64) :
    t.Holds (.float (.ofRatio negative n 1)) := by
  obtain ⟨m, hm, he⟩ := exists_ofRatio_eq negative hn
  obtain ⟨c, hc, hle⟩ := exists_ceiling?_of_isFloating ht
  rw [he]
  exact .floating negative hc (Magnitude.le_trans hm hle)

/-- An integer widened to a floating type or to a wider integral type. -/
theorem widen_int {b : Nat} {n : Int} (ha : t.accepts s = true) (hb : s.bits? = some b)
    (hl : -(pow2 (b - 1) : Int) ≤ n) (hu : n < pow2 (b - 1)) : t.Holds ((Value.int n).widen t) := by
  rw [Value.widen_int]
  rcases integral_of_accepts ha hb with hf | ⟨hf, c, hc, hbc⟩
  · rw [if_pos hf]
    have h64 : pow2 (b - 1) ≤ pow2 64 := pow2_le_pow2 (by have := bits?_le hb; omega)
    exact .ofRatio hf _ (by omega)
  · rw [hf, if_neg Bool.false_ne_true]
    have hle : pow2 (b - 1) ≤ pow2 (c - 1) := pow2_le_pow2 (by omega)
    exact .integral hc (by omega) (by omega)

/-- A character is kept by `char` and becomes its code for a numeric type. -/
theorem widen_char (ha : t.accepts .char = true) (c : Char) : t.Holds ((Value.char c).widen t) := by
  have hc : c.toNat < 1114112 := by
    have hv := c.valid
    simp only [UInt32.isValidChar, Nat.isValidChar] at hv
    show c.val.toNat < _
    omega
  have hnat : ∀ t : Primitive, t.isFloating = true → t.Holds (.float (.ofNat c.toNat)) :=
    fun t ht => .ofRatio ht false (Nat.le_of_lt (Nat.lt_trans hc (by decide)))
  have hint : ∀ b : Nat, 32 ≤ b → (c.toNat : Int) < pow2 (b - 1) := by
    intro b hb
    have hp : pow2 31 ≤ pow2 (b - 1) := pow2_le_pow2 (by omega)
    have h31 : 1114112 < pow2 31 := by decide
    omega
  cases t with
  | char => exact .char c
  | int => exact .integral rfl (by omega) (hint 32 (by decide))
  | long => exact .integral rfl (by omega) (hint 64 (by decide))
  | float => exact hnat .float rfl
  | double => exact hnat .double rfl
  | _ => exact absurd ha (by decide)

/-- **Widening keeps values within their type.** -/
theorem widen (ha : t.accepts s = true) (h : s.Holds v) : t.Holds (v.widen t) := by
  cases h with
  | boolean b => cases t <;> first | exact .boolean b | exact absurd ha (by decide)
  | char c => exact widen_char ha c
  | string x => cases t <;> first | exact .string x | exact absurd ha (by decide)
  | integral hb hl hu => exact widen_int ha hb hl hu
  | floating negative hc hm =>
      obtain ⟨d, hd, hle⟩ := ceiling_of_accepts ha hc
      exact .floating negative hd (Magnitude.le_trans hm hle)

end Holds

end Primitive

end StackHeap
