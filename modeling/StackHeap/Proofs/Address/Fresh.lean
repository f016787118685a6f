import Mathlib.Data.Nat.Digits.Lemmas
import StackHeap.Address
import StackHeap.Proofs.Number.Rounding

/-! # Fresh addresses are distinct

A supply turns a counter into a binary64 seed and the seed into a token.  Both steps keep numbers
apart up to `2 ^ 53`.

* **Seeds.**  A number with 53 significant bits is rounded to itself (`nearest_of_isShort`), so the
  seed of a count up to `2 ^ 53` has that count as its whole part and no fraction
  (`exists_ofNat_eq`).
* **Tokens.**  The token is then the marker and the base-36 numeral of the count (`nth_eq`), and
  numerals are read back digit by digit (`numeral36_injective`).  The numeral has the digits of the
  count in base 36, the highest one first (`numeral36_eq_digits`), and so does not start with a zero
  (`head?_numeral36_ne`).

Past `2 ^ 53` neighbouring counts share a seed (`nth_succ_pow2`), so the bound in `nth_injOn` is
sharp. -/

namespace StackHeap

namespace Number

/-! ### Seeds -/

/-- A count up to `2 ^ 53` is a binary64 number without rounding. -/
theorem exists_ofNat_eq {k : Nat} (h : k ≤ pow2 53) :
    ∃ m : Magnitude, m.units = k * unitsPerOne ∧ Binary64.ofNat k = .finite false m := by
  have hn : nearest (k * unitsPerOne) 1 = k * unitsPerOne :=
    nearest_of_isShort (isShort_mul_pow2 h 1074)
  have hk : k * unitsPerOne < unitLimit := by
    apply Nat.lt_of_le_of_lt (Nat.mul_le_mul_right _ h)
    rw [unitsPerOne, ← pow2_add]
    exact pow2_lt_pow2 (by decide)
  refine ⟨⟨nearest (k * unitsPerOne) 1, isShort_nearest _ _, by rw [hn]; exact hk⟩, hn, ?_⟩
  rw [Binary64.ofNat, Binary64.ofRatio, Binary64.ofUnits, dif_pos (by rw [hn]; exact hk)]

end Number

open Number

/-! ### Numerals -/

theorem digit36_inj {c d : Nat} (hc : c < 36) (hd : d < 36) (h : digit36 c = digit36 d) :
    c = d := by
  have key : ∀ c : Fin 36, ∀ d : Fin 36, digit36 c = digit36 d → c = d := by decide
  exact congrArg Fin.val (key ⟨c, hc⟩ ⟨d, hd⟩ h)

theorem numeral36_of_lt {n : Nat} (h : n < 36) : numeral36 n = [digit36 n] := by
  rw [numeral36, if_pos h]

theorem numeral36_of_le {n : Nat} (h : 36 ≤ n) :
    numeral36 n = numeral36 (n / 36) ++ [digit36 (n % 36)] := by
  rw [numeral36, if_neg (Nat.not_lt.2 h)]

theorem length_numeral36_pos (n : Nat) : 0 < (numeral36 n).length := by
  rcases Nat.lt_or_ge n 36 with h | h
  · rw [numeral36_of_lt h]
    exact Nat.one_pos
  · rw [numeral36_of_le h, List.length_append]
    exact Nat.add_pos_right _ Nat.one_pos

/-- A numeral of more than one digit is no digit alone. -/
theorem numeral36_ne_of_lt_of_le {m n : Nat} (hm : m < 36) (hn : 36 ≤ n) :
    numeral36 m ≠ numeral36 n := by
  intro h
  have hl := congrArg List.length h
  rw [numeral36_of_lt hm, numeral36_of_le hn, List.length_append] at hl
  have := length_numeral36_pos (n / 36)
  simp only [List.length_singleton] at hl
  omega

/-- Distinct numbers have distinct numerals. -/
theorem numeral36_injective {m n : Nat} (h : numeral36 m = numeral36 n) : m = n := by
  induction m using Nat.strongRecOn generalizing n with
  | ind m ih =>
      rcases Nat.lt_or_ge m 36 with hm | hm <;> rcases Nat.lt_or_ge n 36 with hn | hn
      · rw [numeral36_of_lt hm, numeral36_of_lt hn] at h
        exact digit36_inj hm hn (List.singleton_inj.1 h)
      · exact absurd h (numeral36_ne_of_lt_of_le hm hn)
      · exact absurd h.symm (numeral36_ne_of_lt_of_le hn hm)
      · rw [numeral36_of_le hm, numeral36_of_le hn] at h
        obtain ⟨hq, hr⟩ := List.append_inj' h rfl
        have hdiv : m / 36 = n / 36 := ih _ (by omega) hq
        have hmod : m % 36 = n % 36 :=
          digit36_inj (Nat.mod_lt _ (by decide)) (Nat.mod_lt _ (by decide))
            (List.singleton_inj.1 hr)
        omega

/-- The numeral of a positive number has its digits in base 36, the highest one first. -/
theorem numeral36_eq_digits {n : Nat} (h : 0 < n) :
    numeral36 n = (Nat.digits 36 n).reverse.map digit36 := by
  induction n using Nat.strongRecOn with
  | ind n ih =>
      rcases Nat.lt_or_ge n 36 with hn | hn
      · rw [numeral36_of_lt hn, Nat.digits_of_lt 36 n (by omega) hn]
        rfl
      · rw [numeral36_of_le hn, ih (n / 36) (by omega) (by omega), Nat.digits_def' (by omega) h,
          List.reverse_cons, List.map_append]
        rfl

/-- The numeral of a positive number has no leading zero. -/
theorem head?_numeral36_ne {n : Nat} (h : 0 < n) : (numeral36 n).head? ≠ some '0' := by
  have hne : Nat.digits 36 n ≠ [] := Nat.digits_ne_nil_iff_ne_zero.2 (by omega)
  have hlast := Nat.getLast_digit_ne_zero 36 (show n ≠ 0 by omega)
  have hlt := Nat.digits_lt_base (by omega) (List.getLast_mem hne)
  rw [numeral36_eq_digits h, List.head?_map, List.head?_reverse, List.getLast?_eq_some_getLast hne]
  intro hz
  exact hlast (digit36_inj hlt (by omega) (Option.some.inj hz))

namespace Address

/-- A seed without a fraction has its sign and its numeral for a token. -/
theorem body_finite_of_whole {m : Magnitude} {k : Nat} (hm : m.units = k * unitsPerOne)
    (hk : k < pow2 128) (negative : Bool) : body (.finite negative m) =
      (if negative && m.units != 0 then ['-'] else []) ++ numeral36 k := by
  have hw : m.whole = k := by
    rw [Magnitude.whole, hm]
    exact Nat.mul_div_cancel _ unitsPerOne_pos
  have hf : m.fraction.units = 0 := by
    show m.units % unitsPerOne = 0
    rw [hm]
    exact Nat.mul_mod_left _ _
  rw [body, hw, if_pos hf, wholeNumeral, if_pos hk, List.append_nil]

/-- The address of a count up to `2 ^ 53`: the marker and the numeral of the count. -/
theorem nth_eq {k : Nat} (h : k ≤ pow2 53) :
    nth k = ⟨String.ofList ('0' :: 'x' :: numeral36 k)⟩ := by
  obtain ⟨m, hm, he⟩ := exists_ofNat_eq h
  have hk : k < pow2 128 := Nat.lt_of_le_of_lt h (pow2_lt_pow2 (by decide))
  rw [nth, ofSeed, he, body_finite_of_whole hm hk]
  rfl

/-- **Distinct counts up to `2 ^ 53` have distinct addresses.** -/
theorem nth_injOn {j k : Nat} (hj : j ≤ pow2 53) (hk : k ≤ pow2 53) (h : nth j = nth k) :
    j = k := by
  rw [nth_eq hj, nth_eq hk] at h
  have hl := String.ofList_injective (Address.mk.inj h)
  exact numeral36_injective (List.cons.inj (List.cons.inj hl).2).2

/-- The first count past the bound has the address of the last one within it. -/
theorem nth_succ_pow2 : nth (pow2 53 + 1) = nth (pow2 53) :=
  congrArg ofSeed (show Binary64.ofNat (pow2 53 + 1) = Binary64.ofNat (pow2 53) by decide +kernel)

end Address

end StackHeap
