import StackHeap.Proofs.Address.Fresh

/-! # Numerals with rounded quotients

From `2 ^ 128` on the whole part of a seed is written with quotients that are rounded to 53
significant bits before the next digit is taken.  For whole parts of binary64 numbers, which have no
more bits themselves, the numeral is still the number's own.

* **One division** (`eq_of_roundedQuotient36`).  Up to `2 ^ 55` the rounded quotient is the exact one.
  Further up, two numbers with one remainder differ by nine times their spacing at least, and the
  error is too small to bring their quotients together.
* **All divisions** (`roundedValue36_injOn`).  So the digits give the number back, the last one
  first.
* **Both kinds of numerals** (`numeral36_ne_roundedNumeral36`).  A rounded numeral is the exact one of
  another number (`roundedValue36`).  If that were below `2 ^ 128` and had 53 significant bits, it
  would be one of the three largest of its kind, and its fifteenth digit would be odd; but there the
  rounded quotient is still a multiple of eight. -/

namespace StackHeap

open Number

variable {k m n : Nat}

/-! ### One division -/

theorem isShort_roundedQuotient36 (n : Nat) : IsShort (roundedQuotient36 n) :=
  (isShort_nearest _ _).div_pow2 1074

/-- A quotient is not rounded below a number with 53 significant bits. -/
theorem le_roundedQuotient36 (hk : IsShort k) (h : k * 36 ≤ n) : k ≤ roundedQuotient36 n := by
  refine (Nat.le_div_iff_mul_le unitsPerOne_pos).2 (le_nearest (hk.mul_pow2 1074) ?_ (by decide))
  calc k * unitsPerOne * 36 = k * 36 * unitsPerOne := Nat.mul_right_comm _ _ _
    _ ≤ n * unitsPerOne := Nat.mul_le_mul_right _ h

theorem roundedQuotient36_mono (h : m ≤ n) : roundedQuotient36 m ≤ roundedQuotient36 n :=
  Nat.div_le_div_right (nearest_mono (Nat.mul_le_mul_right _ h) (by decide))

/-- The spacing around a quotient by 36 is a thirty-second of that around the number at most. -/
theorem spacing_div_36_le (h : pow2 57 ≤ n) : 32 * spacing (n / 36) ≤ spacing n := by
  have hlog := le_log2_of_pow2_le h
  have hq : n / 36 < pow2 (n.log2 - 4) := by
    refine (Nat.div_lt_iff_lt_mul (by decide)).2 (Nat.lt_of_lt_of_le (lt_pow2_log2_succ n) ?_)
    calc pow2 (n.log2 + 1) = pow2 (n.log2 - 4) * pow2 5 := by rw [← pow2_add]; congr 1; omega
      _ ≤ pow2 (n.log2 - 4) * 36 := Nat.mul_le_mul_left _ (by decide)
  have hqlog : (n / 36).log2 ≤ n.log2 - 5 := by
    by_cases h0 : n / 36 = 0
    · rw [h0]
      exact Nat.zero_le _
    · have := (Nat.log2_lt h0).2 hq
      omega
  calc 32 * spacing (n / 36) = pow2 ((n / 36).log2 - 52 + 5) := by rw [pow2_add, Nat.mul_comm]; rfl
    _ ≤ spacing n := pow2_le_pow2 (by omega)

/-- How far a rounded quotient may be off, in units. -/
theorem roundedQuotient36_error (h : 0 < n) :
    16 * (nearest (n * unitsPerOne) 36 * 36) ≤ 16 * (n * unitsPerOne) + 9 * spacing (n * unitsPerOne) ∧
      16 * (n * unitsPerOne) ≤
        16 * (nearest (n * unitsPerOne) 36 * 36) + 9 * spacing (n * unitsPerOne) := by
  have hlarge : pow2 57 ≤ n * unitsPerOne :=
    Nat.le_trans (pow2_le_pow2 (by decide)) (Nat.le_mul_of_pos_left _ h)
  have hs := spacing_div_36_le hlarge
  have herror := nearest_error (n * unitsPerOne) (show 0 < 36 by decide)
  generalize nearest (n * unitsPerOne) 36 = r at herror ⊢
  generalize spacing (n * unitsPerOne / 36) = t at herror hs
  generalize spacing (n * unitsPerOne) = s at hs ⊢
  generalize n * unitsPerOne = u at herror ⊢
  omega

theorem isShort_units (hn : IsShort n) : IsShort (n * unitsPerOne) := hn.mul_pow2 1074

/-- **Up to `2 ^ 55` rounding does not change the quotient.** -/
theorem roundedQuotient36_of_lt (hn : IsShort n) (h : n < pow2 55) :
    roundedQuotient36 n = n / 36 := by
  rcases Nat.eq_zero_or_pos n with rfl | hpos
  · decide +kernel
  have h55 : pow2 55 = 36028797018963968 := rfl
  have hquot : IsShort (n / 36) := isShort_of_lt (by
    show n / 36 < 9007199254740992
    omega)
  refine Nat.le_antisymm (Nat.le_of_lt_succ ?_)
    (le_roundedQuotient36 hquot (Nat.div_mul_le_self n 36))
  refine (Nat.div_lt_iff_lt_mul unitsPerOne_pos).2 ?_
  -- What the number lacks to the next multiple of 36 is a multiple of its spacing.
  have hlog : n.log2 ≤ 54 := Nat.le_of_lt_succ ((Nat.log2_lt (Nat.ne_of_gt hpos)).2 h)
  have hspacing : spacing (n * unitsPerOne) ∣ unitsPerOne * 4 := by
    have h1076 : unitsPerOne * 4 = pow2 1076 := by
      rw [show 4 = pow2 2 from rfl, unitsPerOne, ← pow2_add]
    rw [h1076, spacing, unitsPerOne, log2_mul_pow2 (Nat.ne_of_gt hpos)]
    exact pow2_dvd_pow2 (by omega)
  have hmultiple : spacing (n * unitsPerOne) ∣ (n / 36 + 1) * unitsPerOne * 36 := by
    refine Nat.dvd_trans hspacing ⟨(n / 36 + 1) * 9, ?_⟩
    ring
  have hbelow : n * unitsPerOne < (n / 36 + 1) * unitsPerOne * 36 := by
    rw [Nat.mul_right_comm]
    exact Nat.mul_lt_mul_of_pos_right (by omega) unitsPerOne_pos
  have hgap := Nat.le_of_dvd (Nat.sub_pos_of_lt hbelow)
    (Nat.dvd_sub hmultiple (spacing_dvd_of_isShort (isShort_units hn)))
  have herror := (roundedQuotient36_error hpos).1
  generalize (n / 36 + 1) * unitsPerOne = t at hbelow hgap ⊢
  generalize nearest (n * unitsPerOne) 36 = r at herror ⊢
  generalize spacing (n * unitsPerOne) = s at herror hgap
  generalize n * unitsPerOne = u at herror hbelow hgap
  omega

/-- Further up it is off by a fraction of the spacing. -/
theorem roundedQuotient36_bounds (h : pow2 52 ≤ n) :
    576 * roundedQuotient36 n ≤ 16 * n + 9 * spacing n ∧
      16 * n < 576 * (roundedQuotient36 n + 1) + 9 * spacing n := by
  have hpos : 0 < n := Nat.lt_of_lt_of_le (pow2_pos 52) h
  have hlog := le_log2_of_pow2_le h
  have hs : spacing (n * unitsPerOne) = spacing n * unitsPerOne := by
    rw [spacing, unitsPerOne, log2_mul_pow2 (Nat.ne_of_gt hpos), spacing, ← pow2_add]
    congr 1
    omega
  obtain ⟨hlow, hhigh⟩ := roundedQuotient36_error hpos
  rw [hs] at hlow hhigh
  have hq1 : roundedQuotient36 n * unitsPerOne ≤ nearest (n * unitsPerOne) 36 :=
    Nat.div_mul_le_self _ _
  have hq2 : nearest (n * unitsPerOne) 36 < (roundedQuotient36 n + 1) * unitsPerOne :=
    (Nat.div_lt_iff_lt_mul unitsPerOne_pos).1 (Nat.lt_succ_self _)
  constructor
  · refine Nat.le_of_mul_le_mul_right ?_ unitsPerOne_pos
    calc 576 * roundedQuotient36 n * unitsPerOne
        = 16 * (roundedQuotient36 n * unitsPerOne * 36) := by ring
      _ ≤ 16 * (nearest (n * unitsPerOne) 36 * 36) := by omega
      _ ≤ 16 * (n * unitsPerOne) + 9 * (spacing n * unitsPerOne) := hlow
      _ = (16 * n + 9 * spacing n) * unitsPerOne := by ring
  · refine Nat.lt_of_mul_lt_mul_right (a := unitsPerOne) ?_
    calc 16 * n * unitsPerOne
        = 16 * (n * unitsPerOne) := Nat.mul_assoc _ _ _
      _ ≤ 16 * (nearest (n * unitsPerOne) 36 * 36) + 9 * (spacing n * unitsPerOne) := hhigh
      _ < 16 * ((roundedQuotient36 n + 1) * unitsPerOne * 36) + 9 * (spacing n * unitsPerOne) := by
          omega
      _ = (576 * (roundedQuotient36 n + 1) + 9 * spacing n) * unitsPerOne := by ring

/-- Numbers with one remainder are nine times their spacing apart at least. -/
theorem nine_spacing_le (hm : IsShort m) (hn : IsShort n) (h : m < n) (hr : m % 36 = n % 36) :
    9 * spacing m ≤ n - m := by
  have hspacing : spacing m ∣ n - m :=
    Nat.dvd_sub (spacing_dvd_of_le hn (Nat.le_of_lt h)) (spacing_dvd_of_isShort hm)
  have hnine : 9 ∣ n - m := by omega
  have hcoprime : Nat.Coprime 9 (spacing m) := Nat.Coprime.pow_right _ (by decide)
  exact Nat.le_of_dvd (Nat.sub_pos_of_lt h) (hcoprime.mul_dvd_of_dvd_of_dvd hnine hspacing)

theorem pow2_mul_spacing (h : pow2 52 ≤ n) : pow2 52 * spacing n = pow2 n.log2 := by
  have hlog := le_log2_of_pow2_le h
  rw [spacing, ← pow2_add]
  congr 1
  omega

/-- Numbers with one remainder have different quotients, rounded as they are. -/
theorem roundedQuotient36_ne_of_lt (hm : IsShort m) (hn : IsShort n) (h : m < n)
    (hr : m % 36 = n % 36) : roundedQuotient36 m ≠ roundedQuotient36 n := by
  have h52 : pow2 52 = 4503599627370496 := rfl
  have h55 : pow2 55 = 36028797018963968 := rfl
  rcases Nat.lt_or_ge m (pow2 55) with hsmall | hlarge
  · -- The quotient of the smaller one is exact, and that of the larger one is no smaller.
    have hnext : IsShort (m / 36 + 1) := isShort_of_lt (by
      show m / 36 + 1 < 9007199254740992
      omega)
    have hle := le_roundedQuotient36 (n := n) hnext (by omega)
    rw [roundedQuotient36_of_lt hm hsmall]
    omega
  · have hm52 : pow2 52 ≤ m := by omega
    have hn52 : pow2 52 ≤ n := by omega
    have hapart := nine_spacing_le hm hn h hr
    have hboundm := (roundedQuotient36_bounds hm52).1
    have hboundn := (roundedQuotient36_bounds hn52).2
    have hgridm := pow2_mul_spacing hm52
    have hgridn := pow2_mul_spacing hn52
    have hlow := pow2_log2_le (n := n) (by omega)
    have hhigh := lt_pow2_log2_succ m
    rw [pow2_succ] at hhigh
    rw [h52] at hgridm hgridn
    have height : 8 ≤ spacing m := by
      have hlog := le_log2_of_pow2_le hlarge
      exact Nat.le_trans (show 8 ≤ pow2 3 by decide) (pow2_le_pow2 (by omega))
    intro hq
    rw [hq] at hboundm
    rcases Nat.lt_or_ge (m.log2 + 1) n.log2 with hfar | hnear
    · -- The larger number is more than twice the smaller one.
      have hpow : pow2 m.log2 * 4 ≤ pow2 n.log2 := by
        rw [show 4 = pow2 2 from rfl, ← pow2_add]
        exact pow2_le_pow2 hfar
      omega
    · have hpow : spacing n ≤ spacing m * 2 := by
        rw [spacing, spacing, ← pow2_succ]
        exact pow2_le_pow2 (by omega)
      omega

/-- **One division keeps numbers apart.** -/
theorem eq_of_roundedQuotient36 (hm : IsShort m) (hn : IsShort n) (hr : m % 36 = n % 36)
    (hq : roundedQuotient36 m = roundedQuotient36 n) : m = n := by
  rcases Nat.lt_trichotomy m n with hlt | heq | hgt
  · exact absurd hq (roundedQuotient36_ne_of_lt hm hn hlt hr)
  · exact heq
  · exact absurd hq.symm (roundedQuotient36_ne_of_lt hn hm hgt hr.symm)

/-! ### All divisions -/

/-- The number whose numeral is the rounded one. -/
def roundedValue36 (n : Nat) : Nat :=
  if h : roundedQuotient36 n = 0 then n % 36
  else roundedValue36 (roundedQuotient36 n) * 36 + n % 36
termination_by n
decreasing_by exact roundedQuotient36_lt h

theorem roundedValue36_zero : roundedValue36 0 = 0 := by
  rw [roundedValue36, dif_pos (by decide +kernel)]

theorem roundedValue36_eq (n : Nat) :
    roundedValue36 n = roundedValue36 (roundedQuotient36 n) * 36 + n % 36 := by
  by_cases h : roundedQuotient36 n = 0
  · rw [h, roundedValue36_zero, roundedValue36, dif_pos h, Nat.zero_mul, Nat.zero_add]
  · rw [roundedValue36, dif_neg h]

/-- A number that is rounded to nothing is a digit. -/
theorem lt_of_roundedQuotient36_eq_zero (h : roundedQuotient36 n = 0) : n < 36 := by
  by_contra hge
  have hone := le_roundedQuotient36 (k := 1) (isShort_pow2 0) (Nat.le_of_not_lt hge)
  omega

theorem roundedValue36_pos (h : 0 < n) : 0 < roundedValue36 n := by
  induction n using Nat.strongRecOn with
  | ind n ih =>
      rw [roundedValue36_eq]
      by_cases hq : roundedQuotient36 n = 0
      · have := lt_of_roundedQuotient36_eq_zero hq
        omega
      · have := ih _ (roundedQuotient36_lt hq) (Nat.pos_of_ne_zero hq)
        omega

theorem roundedValue36_div (n : Nat) : roundedValue36 n / 36 = roundedValue36 (roundedQuotient36 n) := by
  rw [roundedValue36_eq]
  omega

theorem roundedValue36_mod (n : Nat) : roundedValue36 n % 36 = n % 36 := by
  rw [roundedValue36_eq]
  omega

/-- **A rounded numeral is the numeral of a number.** -/
theorem roundedNumeral36_eq (n : Nat) : roundedNumeral36 n = numeral36 (roundedValue36 n) := by
  induction n using Nat.strongRecOn with
  | ind n ih =>
      by_cases hq : roundedQuotient36 n = 0
      · rw [roundedNumeral36, dif_pos hq, roundedValue36, dif_pos hq,
          numeral36_of_lt (Nat.mod_lt _ (by decide))]
      · have hpos := roundedValue36_pos (Nat.pos_of_ne_zero hq)
        have hle : 36 ≤ roundedValue36 n := by
          rw [roundedValue36_eq]
          omega
        rw [roundedNumeral36, dif_neg hq, ih _ (roundedQuotient36_lt hq), numeral36_of_le hle,
          roundedValue36_div, roundedValue36_mod]

/-- **All divisions keep numbers apart.** -/
theorem roundedValue36_injOn (hm : IsShort m) (hn : IsShort n)
    (h : roundedValue36 m = roundedValue36 n) : m = n := by
  induction m using Nat.strongRecOn generalizing n with
  | ind m ih =>
      have hr : m % 36 = n % 36 := by rw [← roundedValue36_mod m, h, roundedValue36_mod]
      have hv : roundedValue36 (roundedQuotient36 m) = roundedValue36 (roundedQuotient36 n) := by
        rw [← roundedValue36_div, h, roundedValue36_div]
      refine eq_of_roundedQuotient36 hm hn hr ?_
      by_cases hq : roundedQuotient36 m = 0
      · by_contra hne
        have hpos := roundedValue36_pos (n := roundedQuotient36 n) (by omega)
        rw [← hv, hq, roundedValue36_zero] at hpos
        exact absurd hpos (Nat.lt_irrefl 0)
      · exact ih _ (roundedQuotient36_lt hq) (isShort_roundedQuotient36 m)
          (isShort_roundedQuotient36 n) hv

/-! ### Both kinds of numerals -/

/-- Up to `2 ^ 55` nothing is rounded. -/
theorem roundedValue36_of_lt (hn : IsShort n) (h : n < pow2 55) : roundedValue36 n = n := by
  induction n using Nat.strongRecOn with
  | ind n ih =>
      rcases Nat.eq_zero_or_pos n with rfl | hpos
      · exact roundedValue36_zero
      · have hq := roundedQuotient36_of_lt hn h
        have hvalue : roundedValue36 (n / 36) = n / 36 :=
          ih _ (by omega) (hq ▸ isShort_roundedQuotient36 n)
            (Nat.lt_of_le_of_lt (Nat.div_le_self _ _) h)
        rw [roundedValue36_eq, hq, hvalue]
        omega

/-- The rounded numeral of a large number is that of a large number. -/
theorem le_roundedValue36 (hn : IsShort n) (h : pow2 52 ≤ n) : pow2 52 ≤ roundedValue36 n := by
  have h49 : pow2 49 = 562949953421312 := rfl
  have h52 : pow2 52 = 4503599627370496 := rfl
  have h55 : pow2 55 = 36028797018963968 := rfl
  induction n using Nat.strongRecOn with
  | ind n ih =>
      rcases Nat.lt_or_ge n (pow2 55) with hsmall | hlarge
      · rwa [roundedValue36_of_lt hn hsmall]
      · have hshort := isShort_roundedQuotient36 n
        have hquot := le_roundedQuotient36 (isShort_pow2 49) (show pow2 49 * 36 ≤ n by omega)
        have hvalue : pow2 49 ≤ roundedValue36 (roundedQuotient36 n) := by
          rcases Nat.lt_or_ge (roundedQuotient36 n) (pow2 52) with hq | hq
          · rwa [roundedValue36_of_lt hshort (by omega)]
          · have := ih _ (roundedQuotient36_lt (by omega)) hshort hq
            omega
        rw [roundedValue36_eq]
        omega

theorem roundedValue36_iterate (n j : Nat) :
    roundedValue36 n / 36 ^ j = roundedValue36 (roundedQuotient36^[j] n) := by
  induction j with
  | zero => rw [Nat.pow_zero, Nat.div_one, Function.iterate_zero_apply]
  | succ j ih =>
      rw [Nat.pow_succ, ← Nat.div_div_eq_div_mul, ih, roundedValue36_div,
        Function.iterate_succ_apply']

theorem iterate_roundedQuotient36_mono (h : m ≤ n) (j : Nat) :
    roundedQuotient36^[j] m ≤ roundedQuotient36^[j] n := by
  induction j with
  | zero => exact h
  | succ j ih =>
      rw [Function.iterate_succ_apply', Function.iterate_succ_apply']
      exact roundedQuotient36_mono ih

/-- The fourteenth quotient of `2 ^ 128`, rounded every time. -/
theorem iterate_roundedQuotient36_pow2 :
    roundedQuotient36^[14] (pow2 128) = 55412077664468640 := by decide +kernel

/-- **No exact numeral is a rounded one**, for numbers with 53 significant bits. -/
theorem numeral36_ne_roundedNumeral36 (hm : IsShort m) (hlt : m < pow2 128) (hle : pow2 128 ≤ n) :
    numeral36 m ≠ roundedNumeral36 n := by
  rw [roundedNumeral36_eq]
  intro h
  have hvalue : m = roundedValue36 n := numeral36_injective h
  have h128 : pow2 128 = 340282366920938463463374607431768211456 := rfl
  have h55 : pow2 55 = 36028797018963968 := rfl
  have h52 : pow2 52 = 4503599627370496 := rfl
  -- The quotients that are left after fourteen and fifteen digits.
  have hshort : ∀ j, IsShort (roundedQuotient36^[j + 1] n) := fun j => by
    rw [Function.iterate_succ_apply']
    exact isShort_roundedQuotient36 _
  have h14 := roundedValue36_iterate n 14
  have h15 := roundedValue36_iterate n 15
  have hq := iterate_roundedQuotient36_mono hle 14
  rw [iterate_roundedQuotient36_pow2] at hq
  rw [Function.iterate_succ_apply', ← hvalue] at h15
  rw [← hvalue] at h14
  have hq14 := hshort 13
  generalize roundedQuotient36^[14] n = q at h14 h15 hq hq14
  have hk : IsShort 1539224379568573 := isShort_of_lt (by decide)
  have hr := le_roundedQuotient36 hk (show 1539224379568573 * 36 ≤ q by omega)
  have hsmall : roundedQuotient36 q < pow2 52 := by
    by_contra hge
    have := le_roundedValue36 (isShort_roundedQuotient36 q) (Nat.le_of_not_lt hge)
    omega
  rw [roundedValue36_of_lt (isShort_roundedQuotient36 q) (by omega)] at h15
  rw [roundedValue36_eq, roundedValue36_of_lt (isShort_roundedQuotient36 q) (by omega)] at h14
  -- The first one is even, and the number one of three.
  have height : 8 ∣ q := spacing_dvd_of_le (m := pow2 55) hq14 (by omega)
  have hgrid : pow2 75 ∣ m := spacing_dvd_of_le (m := pow2 127) hm (by
    have h127 : pow2 127 = 170141183460469231731687303715884105728 := rfl
    omega)
  obtain ⟨c, rfl⟩ := height
  obtain ⟨j, hj⟩ := hgrid
  rw [show pow2 75 = 37778931862957161709568 from rfl] at hj
  have hthree : j = 9007199254740991 ∨ j = 9007199254740990 ∨ j = 9007199254740989 := by omega
  rcases hthree with rfl | rfl | rfl <;> omega

/-- **Whole parts of binary64 numbers have numerals of their own.** -/
theorem wholeNumeral_injOn (hm : IsShort m) (hn : IsShort n) (h : wholeNumeral m = wholeNumeral n) :
    m = n := by
  unfold wholeNumeral at h
  split at h
  · next hlt =>
      split at h
      · exact numeral36_injective h
      · next hge => exact absurd h (numeral36_ne_roundedNumeral36 hm hlt (Nat.le_of_not_lt hge))
  · next hge =>
      split at h
      · next hlt =>
          exact absurd h.symm (numeral36_ne_roundedNumeral36 hn hlt (Nat.le_of_not_lt hge))
      · rw [roundedNumeral36_eq, roundedNumeral36_eq] at h
        exact roundedValue36_injOn hm hn (numeral36_injective h)

end StackHeap
