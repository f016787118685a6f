import Mathlib.Tactic.Ring
import StackHeap.Number.Shortest
import StackHeap.Proofs.Number.Rounding

/-! # The shortest decimal determines the number

`d.ReadsAs m` says that the decimal `d` lies in the interval of the reals that round to `m`.

* **Neighbours.**  Both gaps reach to the neighbours at most (`add_gapAbove_le`, `add_gapBelow_le`),
  and of two neighbours that are as far apart as their gaps one has an odd significand.  So no
  decimal reads as two magnitudes (`Decimal.ReadsAs.unique`), not even one half-way between them.
* **Grids.**  A grid that is finer than the interval is wide has a decimal in it
  (`onGrid?_isSome`).  The interval is wider than the last of seventeen digits, since a significand
  has 53 bits only.
* **The shortest decimal** therefore reads as the magnitude it was taken from (`readsAs_shortest`)
  and as no other (`shortest_injective`).
* **Layout.**  Between zero and one all its digits stand behind the point, and these determine it
  with its exponent, because the zeros in front of them are written (`Decimal.BelowOne`). -/

namespace StackHeap.Number

theorem pow10_zero : pow10 0 = 1 := rfl

theorem pow10_add (j k : Nat) : pow10 (j + k) = pow10 j * pow10 k := Nat.pow_add 10 j k

namespace Magnitude

variable {m n : Magnitude} {num den num' den' : Nat}

/-! ### Gaps -/

theorem gapAbove_pos (m : Magnitude) : 0 < m.gapAbove := pow2_pos _

theorem gapBelow_pos (m : Magnitude) : 0 < m.gapBelow := by
  unfold gapBelow
  split <;> exact pow2_pos _

theorem significand_mul_gapAbove (m : Magnitude) : m.significand * m.gapAbove = m.units :=
  Nat.div_mul_cancel (spacing_dvd_of_isShort m.short)

theorem significand_lt (m : Magnitude) : m.significand < pow2 53 := div_spacing_lt m.units

/-- Away from zero the significand has all its bits. -/
theorem le_significand (h : 0 < m.exponent) : pow2 52 ≤ m.significand := by
  have hlog : m.units.log2 - 52 = m.exponent := rfl
  have hne : m.units ≠ 0 := by
    intro h0
    rw [h0] at hlog
    have : Nat.log2 0 = 0 := by decide
    omega
  refine (Nat.le_div_iff_mul_le (pow2_pos _)).2 ?_
  rw [← pow2_add]
  exact Nat.le_trans (pow2_le_pow2 (by omega)) (pow2_log2_le hne)

/-- The next magnitude of 53 significant bits is not nearer than the gap above. -/
theorem add_gapAbove_le {k : Nat} (hk : IsShort k) (h : m.units < k) : m.units + m.gapAbove ≤ k := by
  have hdvd : m.gapAbove ∣ k - m.units :=
    Nat.dvd_sub (spacing_dvd_of_le hk (Nat.le_of_lt h)) (spacing_dvd_of_isShort m.short)
  have := Nat.le_of_dvd (Nat.sub_pos_of_lt h) hdvd
  omega

theorem gapBelow_dvd_gapAbove (m : Magnitude) : m.gapBelow ∣ m.gapAbove := by
  unfold gapBelow
  split
  · exact pow2_dvd_pow2 (Nat.sub_le _ _)
  · exact Nat.dvd_refl _

theorem gapBelow_le_gapAbove (m : Magnitude) : m.gapBelow ≤ m.gapAbove :=
  Nat.le_of_dvd m.gapAbove_pos m.gapBelow_dvd_gapAbove

theorem gapAbove_le_units (h : m.units ≠ 0) : m.gapAbove ≤ m.units :=
  Nat.le_of_dvd (Nat.pos_of_ne_zero h) (spacing_dvd_of_isShort m.short)

/-- Below a magnitude the grid is not finer than the gap. -/
theorem gapBelow_dvd_spacing (m : Magnitude) : m.gapBelow ∣ spacing (m.units - m.gapBelow) := by
  have hunits := m.significand_mul_gapAbove
  unfold gapBelow
  split
  · next h =>
      -- A power of two, whose predecessor has all bits set.
      obtain ⟨hs, he⟩ := h
      refine pow2_dvd_spacing ?_
      obtain ⟨j, hj⟩ : ∃ j, m.exponent = j + 1 := ⟨m.exponent - 1, by omega⟩
      rw [gapAbove, hs, hj, pow2_succ j] at hunits
      rw [hj, Nat.add_sub_cancel, pow2_add, ← hunits, ← Nat.mul_assoc]
      have hle := Nat.mul_le_mul_right (pow2 j) (pow2_pos 52)
      omega
  · next h =>
      rcases Nat.eq_zero_or_pos m.exponent with he | he
      · rw [he]
        exact Nat.one_dvd _
      · have hs : pow2 52 + 1 ≤ m.significand := by
          have := le_significand he
          omega
        refine pow2_dvd_spacing ?_
        have hle := Nat.mul_le_mul_right m.gapAbove hs
        rw [hunits, Nat.add_mul, Nat.one_mul, gapAbove] at hle
        rw [pow2_add]
        omega

/-- The magnitude before is not nearer than the gap below. -/
theorem add_gapBelow_le (h : m.units < n.units) : m.units + n.gapBelow ≤ n.units := by
  by_contra hlt
  have hdvdm : n.gapBelow ∣ m.units :=
    Nat.dvd_trans n.gapBelow_dvd_spacing (spacing_dvd_of_le m.short (by omega))
  have hdvdn : n.gapBelow ∣ n.units :=
    Nat.dvd_trans n.gapBelow_dvd_gapAbove (spacing_dvd_of_isShort n.short)
  have := Nat.le_of_dvd (Nat.sub_pos_of_lt h) (Nat.dvd_sub hdvdn hdvdm)
  omega

/-- Of two neighbours one has an odd significand. -/
theorem odd_of_adjacent (h : m.units + m.gapAbove = n.units) (hgap : n.gapBelow = m.gapAbove) :
    m.significand % 2 = 1 ∨ n.significand % 2 = 1 := by
  have hm := m.significand_mul_gapAbove
  have hn := n.significand_mul_gapAbove
  have hsucc : (m.significand + 1) * m.gapAbove = n.units := by
    rw [Nat.add_mul, Nat.one_mul, hm, h]
  unfold gapBelow at hgap
  split at hgap
  · next hpow =>
      obtain ⟨hs, he⟩ := hpow
      have hdouble : n.gapAbove = m.gapAbove * 2 := by
        rw [← hgap, ← pow2_succ, gapAbove]
        congr 1
        omega
      have hcancel : m.significand + 1 = pow2 52 * 2 := by
        refine Nat.eq_of_mul_eq_mul_right m.gapAbove_pos ?_
        rw [hsucc, ← hn, hs, hdouble, Nat.mul_assoc, Nat.mul_comm 2]
      omega
  · have hcancel : m.significand + 1 = n.significand := by
      refine Nat.eq_of_mul_eq_mul_right m.gapAbove_pos ?_
      rw [hsucc, ← hn, gapAbove, hgap]
    omega

/-! ### Intervals -/

/-- The lower end of the interval that rounds to a magnitude, in half units. -/
def low (m : Magnitude) : Nat := 2 * m.units - m.gapBelow

/-- The upper end. -/
def high (m : Magnitude) : Nat := 2 * m.units + m.gapAbove

theorem readsBack_iff : m.readsBack num den = true ↔
    (m.low * den ≤ num ∧ num ≤ m.high * den) ∧
      (m.significand % 2 = 1 → m.low * den < num ∧ num < m.high * den) := by
  unfold readsBack low high
  dsimp only
  split <;> rw [decide_eq_true_eq] <;> omega

theorem readsBack_of_lt (hl : m.low * den < num) (hh : num < m.high * den) :
    m.readsBack num den = true :=
  readsBack_iff.2 ⟨⟨Nat.le_of_lt hl, Nat.le_of_lt hh⟩, fun _ => ⟨hl, hh⟩⟩

/-- Only the quotient matters. -/
theorem readsBack_congr (hd : 0 < den) (hd' : 0 < den') (h : num * den' = num' * den)
    (hm : m.readsBack num den = true) : m.readsBack num' den' = true := by
  have hlow : ∀ k, k * den ≤ num ↔ k * den' ≤ num' := fun k => by
    rw [← Nat.mul_le_mul_right_iff hd', h, Nat.mul_right_comm, Nat.mul_le_mul_right_iff hd]
  have hhigh : ∀ k, num ≤ k * den ↔ num' ≤ k * den' := fun k => by
    rw [← Nat.mul_le_mul_right_iff hd', h, Nat.mul_right_comm, Nat.mul_le_mul_right_iff hd]
  rw [readsBack_iff, ← Nat.not_le, ← Nat.not_le] at hm ⊢
  rwa [← hlow, ← hhigh, ← hlow, ← hhigh]

theorem not_lt_of_readsBack (hd : 0 < den) (hm : m.readsBack num den = true)
    (hn : n.readsBack num den = true) : ¬ m.units < n.units := by
  intro h
  have habove := add_gapAbove_le n.short h
  have hbelow := add_gapBelow_le h
  obtain ⟨⟨-, hmh⟩, hmodd⟩ := readsBack_iff.1 hm
  obtain ⟨⟨hnl, -⟩, hnodd⟩ := readsBack_iff.1 hn
  have hends : m.high ≤ n.low := by
    unfold high low
    omega
  -- The intervals share an end at most, and then one of them does not contain it.
  have hshared := Nat.mul_le_mul_right den hends
  have hsame : m.high = n.low := Nat.eq_of_mul_eq_mul_right hd (by omega)
  unfold high low at hsame
  rcases odd_of_adjacent (m := m) (n := n) (by omega) (by omega) with ho | ho
  · have := (hmodd ho).2
    omega
  · have := (hnodd ho).1
    omega

/-- **No quotient rounds to two magnitudes.** -/
theorem readsBack_unique (hd : 0 < den) (hm : m.readsBack num den = true)
    (hn : n.readsBack num den = true) : m = n := by
  have h1 := not_lt_of_readsBack hd hm hn
  have h2 := not_lt_of_readsBack hd hn hm
  exact Magnitude.ext (by omega)

end Magnitude

/-! ### Decimals -/

namespace Decimal

/-- A decimal lies in the interval that rounds to a magnitude. -/
def ReadsAs (d : Decimal) (m : Magnitude) : Prop :=
  m.readsBack (d.coefficient * (2 * unitsPerOne * pow10 d.exponent.toNat))
    (pow10 (-d.exponent).toNat) = true

variable {d : Decimal} {m n : Magnitude}

/-- **No decimal reads as two magnitudes.** -/
theorem ReadsAs.unique (hm : d.ReadsAs m) (hn : d.ReadsAs n) : m = n :=
  Magnitude.readsBack_unique (pow10_pos _) hm hn

/-- Zeros at the end of the coefficient may as well be counted in the exponent. -/
theorem readsAs_mul_pow10_iff (c k : Nat) (e : Int) :
    (⟨c * pow10 k, e - k⟩ : Decimal).ReadsAs m ↔ (⟨c, e⟩ : Decimal).ReadsAs m := by
  have hpow : pow10 k * pow10 (e - k).toNat * pow10 (-e).toNat =
      pow10 e.toNat * pow10 (-(e - k)).toNat := by
    rw [← pow10_add, ← pow10_add, ← pow10_add]
    congr 1
    omega
  have hsame : c * pow10 k * (2 * unitsPerOne * pow10 (e - k).toNat) * pow10 (-e).toNat =
      c * (2 * unitsPerOne * pow10 e.toNat) * pow10 (-(e - k)).toNat := by
    calc c * pow10 k * (2 * unitsPerOne * pow10 (e - k).toNat) * pow10 (-e).toNat
        = c * (2 * unitsPerOne) * (pow10 k * pow10 (e - k).toNat * pow10 (-e).toNat) := by ring
      _ = c * (2 * unitsPerOne) * (pow10 e.toNat * pow10 (-(e - k)).toNat) := by rw [hpow]
      _ = c * (2 * unitsPerOne * pow10 e.toNat) * pow10 (-(e - k)).toNat := by ring
  exact ⟨Magnitude.readsBack_congr (pow10_pos _) (pow10_pos _) hsame,
    Magnitude.readsBack_congr (pow10_pos _) (pow10_pos _) hsame.symm⟩

/-- All digits of the decimal stand behind the point. -/
def BelowOne (d : Decimal) : Prop :=
  d.exponent < 0 ∧ d.coefficient < pow10 (-d.exponent).toNat

/-- A decimal that reads as a magnitude between zero and one lies below one itself. -/
theorem ReadsAs.belowOne (h : d.ReadsAs m) (hpos : m.units ≠ 0) (hlt : m.units < unitsPerOne) :
    d.BelowOne := by
  have hgap := m.gapBelow_le_gapAbove
  have hunits := Magnitude.gapAbove_le_units hpos
  have habove := Magnitude.add_gapAbove_le (isShort_pow2 1074) hlt
  obtain ⟨⟨hlow, hhigh⟩, -⟩ := Magnitude.readsBack_iff.1 h
  have hden := pow10_pos (-d.exponent).toNat
  have hlowpos : 0 < m.low * pow10 (-d.exponent).toNat :=
    Nat.mul_pos (by unfold Magnitude.low; omega) hden
  have hcoeff : 0 < d.coefficient := by
    rcases Nat.eq_zero_or_pos d.coefficient with h0 | h0
    · rw [h0, Nat.zero_mul] at hlow
      omega
    · exact h0
  have hhighlt : m.high < 2 * unitsPerOne := by
    unfold Magnitude.high unitsPerOne at *
    omega
  have hvalue : d.coefficient * pow10 d.exponent.toNat < pow10 (-d.exponent).toNat := by
    refine Nat.lt_of_mul_lt_mul_left (a := 2 * unitsPerOne) ?_
    calc 2 * unitsPerOne * (d.coefficient * pow10 d.exponent.toNat)
        = d.coefficient * (2 * unitsPerOne * pow10 d.exponent.toNat) := Nat.mul_left_comm _ _ _
      _ ≤ m.high * pow10 (-d.exponent).toNat := hhigh
      _ < 2 * unitsPerOne * pow10 (-d.exponent).toNat := Nat.mul_lt_mul_of_pos_right hhighlt hden
  have hle := Nat.le_mul_of_pos_right d.coefficient (pow10_pos d.exponent.toNat)
  refine ⟨?_, by omega⟩
  by_contra hge
  have hzero : (-d.exponent).toNat = 0 := by omega
  rw [hzero] at hvalue
  exact absurd hvalue (Nat.not_lt.2 (Nat.le_trans hcoeff hle))

end Decimal

namespace Magnitude

variable {m n : Magnitude} {d : Decimal}

/-! ### Grids -/

theorem readsAs_of_onGrid? {e : Int} (h : m.onGrid? e = some d) : d.ReadsAs m ∧ d.exponent = e := by
  unfold onGrid? at h
  dsimp only at h
  split at h
  · next hit =>
      cases h
      exact ⟨(Bool.and_eq_true_iff.1 hit).1, rfl⟩
  · split at h
    · next hit =>
        cases h
        exact ⟨hit, rfl⟩
    · cases h

/-- A grid finer than the interval has a decimal in it. -/
theorem onGrid?_isSome {e : Int} (hm : m.units ≠ 0)
    (h : 2 * unitsPerOne * pow10 e.toNat < (m.gapBelow + m.gapAbove) * pow10 (-e).toNat) :
    (m.onGrid? e).isSome = true := by
  unfold onGrid?
  dsimp only
  have hden := pow10_pos (-e).toNat
  have hstep : 0 < 2 * unitsPerOne * pow10 e.toNat :=
    Nat.mul_pos (Nat.mul_pos Nat.two_pos unitsPerOne_pos) (pow10_pos _)
  generalize pow10 (-e).toNat = den at h hden ⊢
  generalize 2 * unitsPerOne * pow10 e.toNat = step at h hstep ⊢
  have hbelow := Nat.div_mul_le_self (2 * m.units * den) step
  have habove : 2 * m.units * den < (2 * m.units * den / step + 1) * step :=
    (Nat.div_lt_iff_lt_mul hstep).1 (Nat.lt_succ_self _)
  generalize 2 * m.units * den / step = below at hbelow habove ⊢
  have hit : m.readsBack (below * step) den = true ∨ m.readsBack ((below + 1) * step) den = true := by
    have hlow : m.low * den + m.gapBelow * den = 2 * m.units * den := by
      have := m.gapBelow_le_gapAbove
      have := gapAbove_le_units hm
      rw [← Nat.add_mul, low, Nat.sub_add_cancel (by omega)]
    have hhigh : m.high * den = 2 * m.units * den + m.gapAbove * den := Nat.add_mul _ _ _
    have hgaplow := Nat.mul_pos m.gapBelow_pos hden
    have hgaphigh := Nat.mul_pos m.gapAbove_pos hden
    rw [Nat.add_mul] at h
    by_cases hl : m.low * den < below * step
    · exact .inl (readsBack_of_lt hl (by omega))
    · refine .inr (readsBack_of_lt (by omega) ?_)
      rw [Nat.succ_mul]
      omega
  rcases hit with hit | hit
  · rw [hit]
    split
    · rfl
    · next hfar =>
        split
        · rfl
        · next hmiss =>
            rw [Bool.eq_false_iff.2 hmiss] at hfar
            simp at hfar
  · rw [hit]
    split
    · rfl
    · rfl

/-! ### Seventeen digits -/

/-- A number lies below the power of ten of its length, and not below the one before. -/
theorem lt_pow10_length (k : Nat) : k < pow10 (decimalDigits k).length :=
  (Nat.length_toDigits_le_iff (by decide) Nat.length_toDigits_pos).1 (Nat.le_refl _)

theorem pow10_length_le {k : Nat} (h : 0 < k) : pow10 ((decimalDigits k).length - 1) ≤ k := by
  by_contra hlt
  have hlen : 0 < (decimalDigits k).length := Nat.length_toDigits_pos
  rcases Nat.eq_zero_or_pos ((decimalDigits k).length - 1) with h0 | hpos
  · rw [h0] at hlt
    exact hlt h
  · have := (Nat.length_toDigits_le_iff (by decide) hpos).2 (Nat.lt_of_not_le hlt)
    unfold decimalDigits at hlen this
    omega

/-- The power of ten below a nonzero magnitude. -/
theorem pow10_le_units (h : m.units ≠ 0) : unitsPerOne * pow10 (m.ceilingExponent - 1).toNat ≤
    m.units * pow10 (1 - m.ceilingExponent).toNat := by
  unfold ceilingExponent
  split
  · next hge =>
      have hlen : 0 < (decimalDigits m.whole).length := Nat.length_toDigits_pos
      have hpow := pow10_length_le (k := m.whole) (Nat.div_pos hge unitsPerOne_pos)
      generalize (decimalDigits m.whole).length = len at hlen hpow ⊢
      have hzero : (1 - (len : Int)).toNat = 0 := by omega
      have hexp : ((len : Int) - 1).toNat = len - 1 := by omega
      rw [hzero, hexp]
      calc unitsPerOne * pow10 (len - 1) ≤ unitsPerOne * m.whole := Nat.mul_le_mul_left _ hpow
        _ ≤ m.units := Nat.mul_div_le _ _
        _ = m.units * pow10 0 := by rw [pow10_zero, Nat.mul_one]
  · have hlt := lt_pow10_length ((unitsPerOne - 1) / m.units)
    rw [Nat.div_lt_iff_lt_mul (Nat.pos_of_ne_zero h), Nat.mul_comm] at hlt
    generalize (decimalDigits ((unitsPerOne - 1) / m.units)).length = len at hlt ⊢
    have hzero : (1 - (len : Int) - 1).toNat = 0 := by omega
    have hexp : (1 - (1 - (len : Int))).toNat = len := by omega
    rw [hzero, hexp]
    calc unitsPerOne * pow10 0 = unitsPerOne := by rw [pow10_zero, Nat.mul_one]
      _ ≤ m.units * pow10 len := by omega

/-- The gaps are wide enough for sixteen digits behind the first. -/
theorem units_lt (m : Magnitude) : 2 * m.units < pow10 16 * (m.gapBelow + m.gapAbove) := by
  have hpos := m.gapAbove_pos
  by_cases hs : m.significand = pow2 52
  · calc 2 * m.units = 2 * pow2 52 * m.gapAbove := by
          rw [Nat.mul_assoc, ← hs, significand_mul_gapAbove]
      _ ≤ pow10 16 * m.gapAbove := Nat.mul_le_mul_right _ (by decide)
      _ < pow10 16 * (m.gapBelow + m.gapAbove) :=
          Nat.mul_lt_mul_of_pos_left (Nat.lt_add_of_pos_left m.gapBelow_pos) (pow10_pos 16)
  · have hgap : m.gapBelow = m.gapAbove := by
      unfold gapBelow gapAbove
      rw [if_neg fun hc => hs hc.1]
    calc 2 * m.units = 2 * (m.significand * m.gapAbove) := by rw [significand_mul_gapAbove]
      _ < 2 * (pow2 53 * m.gapAbove) := Nat.mul_lt_mul_of_pos_left
          (Nat.mul_lt_mul_of_pos_right m.significand_lt hpos) Nat.two_pos
      _ = 2 * pow2 53 * m.gapAbove := (Nat.mul_assoc _ _ _).symm
      _ ≤ pow10 16 * 2 * m.gapAbove := Nat.mul_le_mul_right _ (by decide)
      _ = pow10 16 * (m.gapBelow + m.gapAbove) := by rw [hgap, ← Nat.two_mul, Nat.mul_assoc]

/-- **Seventeen digits suffice.** -/
theorem onGrid?_seventeen (h : m.units ≠ 0) : (m.onGrid? (m.ceilingExponent - 17)).isSome = true := by
  refine onGrid?_isSome h ?_
  have hpow := pow10_le_units h
  have hunits := m.units_lt
  generalize m.ceilingExponent = top at hpow ⊢
  refine Nat.lt_of_mul_lt_mul_right (a := pow10 16 * pow10 (1 - top).toNat) ?_
  have hexp : pow10 (top - 17).toNat * (pow10 16 * pow10 (1 - top).toNat) =
      pow10 (top - 1).toNat * pow10 (-(top - 17)).toNat := by
    rw [← pow10_add, ← pow10_add, ← pow10_add]
    congr 1
    omega
  calc 2 * unitsPerOne * pow10 (top - 17).toNat * (pow10 16 * pow10 (1 - top).toNat)
      = 2 * unitsPerOne * (pow10 (top - 1).toNat * pow10 (-(top - 17)).toNat) := by
        rw [Nat.mul_assoc, hexp]
    _ = 2 * (unitsPerOne * pow10 (top - 1).toNat) * pow10 (-(top - 17)).toNat := by ring
    _ ≤ 2 * (m.units * pow10 (1 - top).toNat) * pow10 (-(top - 17)).toNat :=
        Nat.mul_le_mul_right _ (Nat.mul_le_mul_left _ hpow)
    _ = 2 * m.units * (pow10 (1 - top).toNat * pow10 (-(top - 17)).toNat) := by ring
    _ < pow10 16 * (m.gapBelow + m.gapAbove) *
          (pow10 (1 - top).toNat * pow10 (-(top - 17)).toNat) :=
        Nat.mul_lt_mul_of_pos_right hunits (Nat.mul_pos (pow10_pos _) (pow10_pos _))
    _ = (m.gapBelow + m.gapAbove) * pow10 (-(top - 17)).toNat *
          (pow10 16 * pow10 (1 - top).toNat) := by ring

/-! ### The shortest decimal -/

theorem readsAs_zero (h : m.units = 0) : (⟨0, 0⟩ : Decimal).ReadsAs m := by
  obtain rfl : m = zero := Magnitude.ext h
  unfold Decimal.ReadsAs
  decide +kernel

/-- **The shortest decimal reads back.** -/
theorem readsAs_shortest (m : Magnitude) : m.shortest.ReadsAs m := by
  unfold shortest
  split
  · next h => exact readsAs_zero h
  · next h =>
      dsimp only
      have hsome : ((List.range' 1 17).findSome? fun (n : Nat) =>
          (m.onGrid? (m.ceilingExponent - n)).map fun d =>
            if d.coefficient = pow10 n then (⟨1, m.ceilingExponent⟩ : Decimal) else d).isSome = true :=
        List.findSome?_isSome_iff.2 ⟨17, by decide, by
          rw [Option.isSome_map]
          exact onGrid?_seventeen h⟩
      obtain ⟨d, hd⟩ := Option.isSome_iff_exists.1 hsome
      rw [hd, Option.getD_some]
      obtain ⟨n, -, hn⟩ := List.exists_of_findSome?_eq_some hd
      obtain ⟨d', hgrid, rfl⟩ := Option.map_eq_some_iff.1 hn
      obtain ⟨hreads, hexp⟩ := readsAs_of_onGrid? hgrid
      split
      · next hpow =>
          have hd' : d' = ⟨1 * pow10 n, m.ceilingExponent - n⟩ := by
            rw [Nat.one_mul, ← hpow, ← hexp]
          rw [hd'] at hreads
          exact (Decimal.readsAs_mul_pow10_iff 1 n _).1 hreads
      · exact hreads

/-- **The shortest decimal determines the magnitude.** -/
theorem shortest_injective (h : m.shortest = n.shortest) : m = n :=
  (readsAs_shortest m).unique (h ▸ readsAs_shortest n)

end Magnitude

/-! ### Layout below one -/

theorem ofDecimalDigits_decimalDigits (n : Nat) : ofDecimalDigits (decimalDigits n) = n :=
  Nat.ofDigitChars_toDigits (by decide) (by decide)

theorem ofDecimalDigits_zeros (k : Nat) (digits : List Char) :
    ofDecimalDigits (List.replicate k '0' ++ digits) = ofDecimalDigits digits := by
  induction k with
  | zero => rfl
  | succ k ih =>
      rw [List.replicate_succ, List.cons_append, ofDecimalDigits, List.foldl_cons]
      exact ih

namespace Decimal

variable {d e : Decimal}

/-- The digits behind the point of a decimal below one. -/
def places (d : Decimal) : List Char :=
  List.replicate ((-d.exponent).toNat - (decimalDigits d.coefficient).length) '0' ++
    decimalDigits d.coefficient

theorem BelowOne.length_le (h : d.BelowOne) :
    (decimalDigits d.coefficient).length ≤ (-d.exponent).toNat :=
  (Nat.length_toDigits_le_iff (by decide) (by have := h.1; omega)).2 h.2

theorem BelowOne.length_places (h : d.BelowOne) : d.places.length = (-d.exponent).toNat := by
  rw [places, List.length_append, List.length_replicate, Nat.sub_add_cancel h.length_le]

theorem BelowOne.positional_eq (h : d.BelowOne) : d.positional = '0' :: '.' :: d.places := by
  have hlen := h.length_le
  have hplaces := h.length_places
  have hpadded : List.replicate ((-d.exponent).toNat + 1 - (decimalDigits d.coefficient).length) '0' ++
      decimalDigits d.coefficient = '0' :: d.places := by
    rw [Nat.sub_add_comm hlen, List.replicate_succ, List.cons_append, places]
  unfold positional
  dsimp only
  rw [if_neg (by have := h.1; omega), hpadded, List.length_cons, hplaces, Nat.add_sub_cancel_left]
  rfl

/-- The digits behind the point determine a decimal below one. -/
theorem BelowOne.eq_of_places (hd : d.BelowOne) (he : e.BelowOne) (h : d.places = e.places) :
    d = e := by
  have hlen := congrArg List.length h
  rw [hd.length_places, he.length_places] at hlen
  have hcoeff := congrArg ofDecimalDigits h
  rw [places, places, ofDecimalDigits_zeros, ofDecimalDigits_zeros, ofDecimalDigits_decimalDigits,
    ofDecimalDigits_decimalDigits] at hcoeff
  have hexp : d.exponent = e.exponent := by
    have := hd.1
    have := he.1
    omega
  cases d
  cases e
  cases hcoeff
  cases hexp
  rfl

end Decimal

end StackHeap.Number
