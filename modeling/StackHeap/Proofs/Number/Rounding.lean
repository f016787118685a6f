import Mathlib.Data.Nat.Log
import StackHeap.Number.Binary64

/-! # Rounding to 53 significant bits

What `nearest` does to a quotient, apart from how it finds its grid.

* A number with 53 significant bits lies on its own grid and on every finer one
  (`spacing_dvd_of_le`), so it is rounded to itself (`nearest_of_isShort`), and no quotient above it
  is rounded below it (`le_nearest`).
* Rounding keeps the order (`nearest_mono`).
* The error is at most half the spacing of the grid (`nearest_error`). -/

namespace StackHeap.Number

variable {k m n num num' den : Nat}

/-! ### Grids -/

theorem pow2_dvd_pow2 {j k : Nat} (h : j ≤ k) : pow2 j ∣ pow2 k := Nat.pow_dvd_pow 2 h

theorem pow2_lt_pow2 {j k : Nat} (h : j < k) : pow2 j < pow2 k :=
  Nat.pow_lt_pow_right (by decide) h

theorem log2_le_log2 (h : m ≤ n) : m.log2 ≤ n.log2 := by
  rw [Nat.log2_eq_log_two, Nat.log2_eq_log_two]
  exact Nat.log_mono_right h

theorem le_log2_of_pow2_le (h : pow2 k ≤ n) : k ≤ n.log2 :=
  (Nat.le_log2 (Nat.ne_of_gt (Nat.lt_of_lt_of_le (pow2_pos k) h))).2 h

theorem log2_mul_pow2 (hn : n ≠ 0) (k : Nat) : (n * pow2 k).log2 = n.log2 + k := by
  induction k with
  | zero => rw [pow2, Nat.pow_eq, Nat.pow_zero, Nat.mul_one, Nat.add_zero]
  | succ k ih =>
      have hne : n * pow2 k ≠ 0 := Nat.mul_ne_zero hn (Nat.ne_of_gt (pow2_pos k))
      rw [pow2_succ, ← Nat.mul_assoc, Nat.log2_eq_log_two, Nat.log_mul_base (by decide) hne,
        ← Nat.log2_eq_log_two, ih, Nat.add_assoc]

theorem spacing_dvd_spacing (h : m ≤ n) : spacing m ∣ spacing n :=
  pow2_dvd_pow2 (Nat.sub_le_sub_right (log2_le_log2 h) 52)

theorem pow2_dvd_spacing (h : pow2 (52 + k) ≤ n) : pow2 k ∣ spacing n := by
  have hlog := le_log2_of_pow2_le h
  exact pow2_dvd_pow2 (by omega)

/-- The spacing around a number of 53 significant bits divides it. -/
theorem spacing_dvd_of_isShort (h : IsShort n) : spacing n ∣ n := by
  obtain ⟨m, e, hm, rfl⟩ := h
  rcases Nat.eq_zero_or_pos m with rfl | hpos
  · rw [Nat.zero_mul]
    exact Nat.dvd_zero _
  · have hne : m * pow2 e ≠ 0 := Nat.mul_ne_zero (by omega) (Nat.ne_of_gt (pow2_pos e))
    have hlt : m * pow2 e < pow2 (53 + e) := by
      rw [pow2_add]
      exact Nat.mul_lt_mul_of_pos_right hm (pow2_pos e)
    have hlog : (m * pow2 e).log2 < 53 + e := (Nat.log2_lt hne).2 hlt
    have hs : spacing (m * pow2 e) ∣ pow2 e := pow2_dvd_pow2 (by omega)
    exact Nat.dvd_trans hs (Nat.dvd_mul_left _ _)

/-- So does the spacing around a smaller number. -/
theorem spacing_dvd_of_le (h : IsShort n) (hm : m ≤ n) : spacing m ∣ n :=
  Nat.dvd_trans (spacing_dvd_spacing hm) (spacing_dvd_of_isShort h)

theorem isShort_of_lt (h : n < pow2 53) : IsShort n := ⟨n, 0, h, (Nat.mul_one n).symm⟩

theorem isShort_mul_pow2 (h : k ≤ pow2 53) (e : Nat) : IsShort (k * pow2 e) := by
  rcases Nat.lt_or_eq_of_le h with hlt | rfl
  · exact ⟨k, e, hlt, rfl⟩
  · exact ⟨1, 53 + e, one_lt_pow2 (by decide), by rw [pow2_add, Nat.one_mul]⟩

theorem isShort_pow2 (e : Nat) : IsShort (pow2 e) := by
  have h := isShort_mul_pow2 (k := 1) (pow2_pos 53) e
  rwa [Nat.one_mul] at h

theorem IsShort.mul_pow2 (h : IsShort n) (e : Nat) : IsShort (n * pow2 e) := by
  obtain ⟨m, j, hm, rfl⟩ := h
  exact ⟨m, j + e, hm, by rw [Nat.mul_assoc, ← pow2_add]⟩

/-- The whole number of times that a power of two fits is short again. -/
theorem IsShort.div_pow2 (h : IsShort n) (e : Nat) : IsShort (n / pow2 e) := by
  obtain ⟨m, j, hm, rfl⟩ := h
  rcases Nat.le_total e j with hle | hle
  · obtain ⟨i, rfl⟩ := Nat.exists_eq_add_of_le hle
    refine ⟨m, i, hm, ?_⟩
    rw [pow2_add, Nat.mul_left_comm, Nat.mul_div_cancel_left _ (pow2_pos e)]
  · obtain ⟨i, rfl⟩ := Nat.exists_eq_add_of_le hle
    refine ⟨m / pow2 i, 0, Nat.lt_of_le_of_lt (Nat.div_le_self _ _) hm, ?_⟩
    rw [pow2_add, ← Nat.div_div_eq_div_mul, Nat.mul_div_cancel _ (pow2_pos j)]
    exact (Nat.mul_one _).symm

/-! ### Rounding to an integer -/

theorem roundHalfEven_of_dvd (hd : 0 < den) (h : den ∣ num) :
    roundHalfEven num den = num / den := by
  unfold roundHalfEven
  have hr : num % den = 0 := Nat.mod_eq_zero_of_dvd h
  simp only [hr, Nat.mul_zero, if_pos hd]

theorem div_le_roundHalfEven (num den : Nat) : num / den ≤ roundHalfEven num den := by
  unfold roundHalfEven
  dsimp only
  split
  · exact Nat.le_refl _
  · split <;> omega

theorem roundHalfEven_mono (h : num ≤ num') (den : Nat) :
    roundHalfEven num den ≤ roundHalfEven num' den := by
  have hq : num / den ≤ num' / den := Nat.div_le_div_right h
  rcases Nat.lt_or_eq_of_le hq with hlt | heq
  · exact Nat.le_trans (Nat.le_trans (roundHalfEven_le num den) hlt) (div_le_roundHalfEven num' den)
  · have hr : num % den ≤ num' % den := by
      have h1 := Nat.div_add_mod num den
      have h2 := Nat.div_add_mod num' den
      rw [← heq] at h2
      omega
    unfold roundHalfEven
    rw [← heq]
    dsimp only
    repeat' split
    all_goals omega

/-- The error is at most half the denominator. -/
theorem roundHalfEven_error (num : Nat) (hd : 0 < den) :
    2 * (roundHalfEven num den * den) ≤ 2 * num + den ∧
      2 * num ≤ 2 * (roundHalfEven num den * den) + den := by
  have hdiv := Nat.div_add_mod num den
  have hmod := Nat.mod_lt num hd
  rw [Nat.mul_comm] at hdiv
  unfold roundHalfEven
  dsimp only
  split
  · omega
  · split
    · rw [Nat.add_mul, Nat.one_mul]
      omega
    · -- A tie, where either neighbour is half the denominator away.
      rcases Nat.mod_two_eq_zero_or_one (num / den) with hz | ho
      · rw [hz, Nat.add_zero]
        omega
      · rw [ho, Nat.add_mul, Nat.one_mul]
        omega

/-! ### Rounding to a grid -/

/-- Rounding leaves a number of 53 significant bits as it is. -/
theorem nearest_of_isShort (h : IsShort n) : nearest n 1 = n := by
  have hd := spacing_dvd_of_isShort h
  have hs := spacing_pos n
  simp only [nearest, Nat.div_one, Nat.one_mul]
  rw [roundHalfEven_of_dvd hs hd, Nat.div_mul_cancel hd]

/-- The multiple of the spacing below a quotient is rounded to at least. -/
theorem grid_le_nearest (num den : Nat) :
    num / den / spacing (num / den) * spacing (num / den) ≤ nearest num den := by
  rw [nearest, Nat.div_div_eq_div_mul]
  exact Nat.mul_le_mul_right _ (div_le_roundHalfEven _ _)

/-- What is at least a short number is not rounded below it. -/
theorem le_nearest (hm : IsShort m) (h : m * den ≤ num) (hd : 0 < den) : m ≤ nearest num den := by
  have hle : m ≤ num / den := (Nat.le_div_iff_mul_le hd).2 h
  refine Nat.le_trans ?_ (grid_le_nearest num den)
  by_cases hs : spacing (num / den) ∣ m
  · calc m = m / spacing (num / den) * spacing (num / den) := (Nat.div_mul_cancel hs).symm
      _ ≤ _ := Nat.mul_le_mul_right _ (Nat.div_le_div_right hle)
  · -- The quotient lies past a power of two that the number does not reach.
    have hlog : m.log2 < (num / den).log2 := by
      by_contra hge
      have hsame : spacing (num / den) ∣ spacing m :=
        pow2_dvd_pow2 (Nat.sub_le_sub_right (Nat.le_of_not_lt hge) 52)
      exact hs (Nat.dvd_trans hsame (spacing_dvd_of_isShort hm))
    have hne : num / den ≠ 0 := by
      rintro h0
      rw [h0] at hlog
      exact absurd hlog (by simp)
    have hpow : m < pow2 (num / den).log2 :=
      Nat.lt_of_lt_of_le (lt_pow2_log2_succ m) (pow2_le_pow2 hlog)
    have hdvd : spacing (num / den) ∣ pow2 (num / den).log2 := pow2_dvd_pow2 (Nat.sub_le _ _)
    calc m ≤ pow2 (num / den).log2 := Nat.le_of_lt hpow
      _ = pow2 (num / den).log2 / spacing (num / den) * spacing (num / den) :=
          (Nat.div_mul_cancel hdvd).symm
      _ ≤ _ := Nat.mul_le_mul_right _ (Nat.div_le_div_right (pow2_log2_le hne))

/-- A quotient is rounded at most to the next power of two. -/
theorem nearest_le_pow2 (num den : Nat) : nearest num den ≤ pow2 ((num / den).log2 + 1) := by
  have hs := spacing_pos (num / den)
  have hdvd : spacing (num / den) ∣ pow2 ((num / den).log2 + 1) := pow2_dvd_pow2 (by omega)
  have hlt : num / den / spacing (num / den) <
      pow2 ((num / den).log2 + 1) / spacing (num / den) := by
    refine (Nat.div_lt_iff_lt_mul hs).2 ?_
    rw [Nat.div_mul_cancel hdvd]
    exact lt_pow2_log2_succ _
  have hround := roundHalfEven_le num (den * spacing (num / den))
  rw [← Nat.div_div_eq_div_mul] at hround
  calc nearest num den ≤ pow2 ((num / den).log2 + 1) / spacing (num / den) * spacing (num / den) :=
        Nat.mul_le_mul_right _ (Nat.le_trans hround hlt)
    _ = _ := Nat.div_mul_cancel hdvd

/-- **Rounding keeps the order.** -/
theorem nearest_mono (h : num ≤ num') (hd : 0 < den) : nearest num den ≤ nearest num' den := by
  have hq : num / den ≤ num' / den := Nat.div_le_div_right h
  rcases Nat.lt_or_eq_of_le (log2_le_log2 hq) with hlt | heq
  · have hne : num' / den ≠ 0 := by
      rintro h0
      rw [h0] at hlt
      exact absurd hlt (by simp)
    refine Nat.le_trans (nearest_le_pow2 num den) (le_nearest (isShort_pow2 _) ?_ hd)
    exact (Nat.le_div_iff_mul_le hd).1 (Nat.le_trans (pow2_le_pow2 hlt) (pow2_log2_le hne))
  · have hs : spacing (num / den) = spacing (num' / den) := by rw [spacing, spacing, heq]
    rw [nearest, nearest, hs]
    exact Nat.mul_le_mul_right _ (roundHalfEven_mono h _)

/-- **The error is at most half the spacing.** -/
theorem nearest_error (num : Nat) (hd : 0 < den) :
    2 * (nearest num den * den) ≤ 2 * num + den * spacing (num / den) ∧
      2 * num ≤ 2 * (nearest num den * den) + den * spacing (num / den) := by
  have h := roundHalfEven_error num (Nat.mul_pos hd (spacing_pos (num / den)))
  rw [nearest, Nat.mul_assoc, Nat.mul_comm _ den]
  exact h

end StackHeap.Number
