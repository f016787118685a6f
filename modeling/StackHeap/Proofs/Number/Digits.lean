import Mathlib.Data.Nat.Digits.Defs
import StackHeap.Number.Digits

/-! # Reading digits

A string of decimal digits denotes the number in positional notation, the last digit counting one
(`ofDecimalDigits_eq_ofDigits`).  A reader that gives up at a bound returns that number if it is below
the bound and nothing otherwise, wherever it stops (`ofDecimalDigitsBelow?_eq_some_iff`): one digit more
never makes a number smaller.  Zero is written with zeros only (`ofDecimalDigits_eq_zero_iff`). -/

namespace StackHeap.Number

variable {bound a n : Nat} {digits : List Char}

/-- What a digit counts by itself. -/
def digitValue (c : Char) : Nat := c.toNat - '0'.toNat

theorem ofDecimalDigits_eq_ofDigits (digits : List Char) :
    ofDecimalDigits digits = Nat.ofDigits 10 (digits.reverse.map digitValue) := by
  rw [Nat.ofDigits_eq_foldr, List.foldr_map, List.foldr_reverse]
  unfold ofDecimalDigits
  congr 1
  funext n c
  rw [Nat.add_comm]
  rfl

/-- The number read before is at most the one read in the end. -/
theorem le_foldl_digits (a : Nat) (digits : List Char) :
    a ≤ digits.foldl (fun n c => 10 * n + (c.toNat - '0'.toNat)) a := by
  induction digits generalizing a with
  | nil => exact Nat.le_refl a
  | cons c digits ih =>
      rw [List.foldl_cons]
      calc a ≤ 10 * a + (c.toNat - '0'.toNat) := by omega
        _ ≤ _ := ih _

/-- Only a string of zeros denotes zero. -/
theorem ofDecimalDigits_eq_zero_iff (hd : ∀ c ∈ digits, c.isDigit = true) :
    ofDecimalDigits digits = 0 ↔ ∀ c ∈ digits, c = '0' := by
  induction digits with
  | nil => simp [ofDecimalDigits]
  | cons c digits ih =>
      rw [List.forall_mem_cons] at hd ⊢
      rw [← ih hd.2, ofDecimalDigits, List.foldl_cons]
      constructor
      · intro h
        have hle := le_foldl_digits (10 * 0 + (c.toNat - '0'.toNat)) digits
        have hzero : c.toNat ≤ '0'.toNat := by omega
        have hdigit : '0'.toNat ≤ c.toNat := by
          simpa [Char.isDigit, UInt32.le_iff_toNat_le] using (Bool.and_eq_true_iff.1 hd.1).1
        obtain rfl : c = '0' := Char.toNat_inj.1 (Nat.le_antisymm hzero hdigit)
        exact ⟨rfl, h⟩
      · rintro ⟨rfl, h⟩
        exact h

theorem foldlM_digits_eq_some_iff (ha : a < bound) :
    digits.foldlM (fun n c => some (10 * n + (c.toNat - '0'.toNat)) |>.filter (· < bound)) a = some n ↔
      n = digits.foldl (fun n c => 10 * n + (c.toNat - '0'.toNat)) a ∧ n < bound := by
  induction digits generalizing a with
  | nil =>
      rw [List.foldlM_nil, List.foldl_nil]
      constructor
      · rintro ⟨⟩
        exact ⟨rfl, ha⟩
      · rintro ⟨rfl, -⟩
        rfl
  | cons c digits ih =>
      rw [List.foldlM_cons, List.foldl_cons]
      by_cases hc : 10 * a + (c.toNat - '0'.toNat) < bound
      · rw [Option.filter_some, if_pos (decide_eq_true hc)]
        exact ih hc
      · rw [Option.filter_some, if_neg (by simpa using hc)]
        refine ⟨fun h => (by cases h), ?_⟩
        rintro ⟨rfl, hn⟩
        exact absurd (Nat.lt_of_le_of_lt (le_foldl_digits _ digits) hn) hc

/-- **Reading up to a bound gives the number denoted, if it is below the bound.** -/
theorem ofDecimalDigitsBelow?_eq_some_iff (hb : 0 < bound) :
    ofDecimalDigitsBelow? bound digits = some n ↔ n = ofDecimalDigits digits ∧ n < bound :=
  foldlM_digits_eq_some_iff hb

end StackHeap.Number
