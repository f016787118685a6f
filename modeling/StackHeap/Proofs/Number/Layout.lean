import StackHeap.Proofs.Number.Numerals
import StackHeap.Proofs.Number.Shortest

/-! # What is written of a number

A decimal is laid out as a numeral, with an exponent (`numeral_scientific`) or without
(`exists_numeral_positional`).  The numeral stands for the decimal itself, or for the same number
with zeros at the end; it reads as the same magnitude either way.

Numerals stand for one decimal each, and decimals read as one magnitude each, so the text of a finite
number determines it to the last bit, its sign included (`text_finite_injective`).  The texts of
integers are told apart in the same way (`integerText_injective`). -/

namespace StackHeap.Number

variable {n : Nat} {c : Char} {cs : List Char} {d : Decimal} {m : Magnitude}

/-! ### Digits -/

theorem isDigit_of_mem_decimalDigits (h : c ∈ decimalDigits n) : c.isDigit = true :=
  Nat.isDigit_of_mem_toDigits (by decide) (by decide) h

theorem decimalDigits_ne_nil (n : Nat) : decimalDigits n ≠ [] := Nat.toDigits_ne_nil

theorem isDigit_of_mem_zeros {k : Nat} (h : c ∈ List.replicate k '0') : c.isDigit = true := by
  rw [List.eq_of_mem_replicate h]
  rfl

theorem decimalDigits_injective : Function.Injective decimalDigits := by
  intro n k h
  rw [← ofDecimalDigits_decimalDigits n, h, ofDecimalDigits_decimalDigits]

theorem ofDecimalDigits_append_zeros (digits : List Char) (k : Nat) :
    ofDecimalDigits (digits ++ List.replicate k '0') = ofDecimalDigits digits * pow10 k := by
  induction k with
  | zero => rw [List.replicate_zero, List.append_nil, pow10_zero, Nat.mul_one]
  | succ k ih =>
      have hlast : ofDecimalDigits (digits ++ List.replicate k '0' ++ ['0']) =
          10 * ofDecimalDigits (digits ++ List.replicate k '0') := List.foldl_append
      rw [List.replicate_succ', ← List.append_assoc, hlast, ih, pow10_add, Nat.mul_left_comm,
        Nat.mul_comm 10 (pow10 k)]
      rfl

/-! ### Integers -/

theorem toList_integerText (k : Int) : (integerText k).toList =
    (if decide (k < 0) then ['-'] else []) ++ decimalDigits k.natAbs := by
  rw [integerText, String.toList_ofList]
  by_cases h : k < 0 <;> simp [h]

/-- An integer is written with the digits of its magnitude behind its sign. -/
theorem signedDigits_integerText (k : Int) : SignedDigits (integerText k).toList k := by
  have hdigits : ∀ c ∈ decimalDigits k.natAbs, c.isDigit = true := fun _ => isDigit_of_mem_decimalDigits
  rw [toList_integerText]
  by_cases h : k < 0
  · have hs := SignedDigits.minus hdigits (decimalDigits_ne_nil _)
    rw [ofDecimalDigits_decimalDigits, Int.ofNat_natAbs_of_nonpos (Int.le_of_lt h), Int.neg_neg] at hs
    simpa [h] using hs
  · have hs := SignedDigits.bare hdigits (decimalDigits_ne_nil _)
    rw [ofDecimalDigits_decimalDigits, Int.natAbs_of_nonneg (Int.not_lt.1 h)] at hs
    simpa [h] using hs

theorem integerText_injective : Function.Injective integerText := by
  intro j k h
  have hread := readExponent?_eq_some_iff.2 (signedDigits_integerText j)
  rw [h, readExponent?_eq_some_iff.2 (signedDigits_integerText k)] at hread
  exact (Option.some.inj hread).symm

/-! ### Layouts -/

/-- Digits on both sides of a point. -/
theorem Numeral.ofPoint {whole fraction : List Char} (hw : ∀ c ∈ whole, c.isDigit = true)
    (hf : ∀ c ∈ fraction, c.isDigit = true) (hne : whole ≠ []) :
    Numeral (whole ++ '.' :: fraction) ⟨ofDecimalDigits (whole ++ fraction), -fraction.length⟩ := by
  have hn := Numeral.mk hw (.point hf) .none (.inl hne)
  rwa [List.append_nil, Int.zero_sub] at hn

namespace Decimal

/-- Digits behind the point are those of the decimal, with zeros in front. -/
theorem numeral_positional_of_neg (h : d.exponent < 0) : Numeral d.positional d := by
  unfold positional
  dsimp only
  rw [if_neg (by omega)]
  generalize hp : List.replicate ((-d.exponent).toNat + 1 - (decimalDigits d.coefficient).length) '0' ++
    decimalDigits d.coefficient = padded
  have hdigits : ∀ c ∈ padded, c.isDigit = true := by
    intro c hc
    rw [← hp] at hc
    rcases List.mem_append.1 hc with hc | hc
    · exact isDigit_of_mem_zeros hc
    · exact isDigit_of_mem_decimalDigits hc
  have hlength : (-d.exponent).toNat + 1 ≤ padded.length := by
    rw [← hp, List.length_append, List.length_replicate]
    omega
  have hvalue : ofDecimalDigits padded = d.coefficient := by
    rw [← hp, ofDecimalDigits_zeros, ofDecimalDigits_decimalDigits]
  generalize hk : padded.length - (-d.exponent).toNat = k
  have hne : padded.take k ≠ [] := by
    intro hnil
    have := congrArg List.length hnil
    rw [List.length_take, List.length_nil] at this
    omega
  have hn := Numeral.ofPoint (fun c hc => hdigits c (List.mem_of_mem_take hc))
    (fun c (hc : c ∈ padded.drop k) => hdigits c (List.mem_of_mem_drop hc)) hne
  rw [List.take_append_drop, hvalue, List.length_drop] at hn
  have hexponent : -((padded.length - k : Nat) : Int) = d.exponent := by omega
  rwa [hexponent] at hn

/-- **Without an exponent a decimal is written as a numeral that reads the same.** -/
theorem exists_numeral_positional (h : d.ReadsAs m) :
    ∃ d', Numeral d.positional d' ∧ d'.ReadsAs m := by
  rcases Int.lt_or_le d.exponent 0 with hneg | hpos
  · exact ⟨d, numeral_positional_of_neg hneg, h⟩
  · -- The zero behind the point is one digit more.
    have hvalue : ofDecimalDigits
        (decimalDigits d.coefficient ++ List.replicate d.exponent.toNat '0' ++ ['0']) =
          d.coefficient * pow10 (d.exponent.toNat + 1) := by
      rw [List.append_assoc, ← List.replicate_succ', ofDecimalDigits_append_zeros,
        ofDecimalDigits_decimalDigits]
    have hexponent : d.exponent - ((d.exponent.toNat + 1 : Nat) : Int) = -1 := by omega
    have hn := Numeral.ofPoint
      (fun c (hc : c ∈ decimalDigits d.coefficient ++ List.replicate d.exponent.toNat '0') =>
        (List.mem_append.1 hc).elim isDigit_of_mem_decimalDigits isDigit_of_mem_zeros)
      (show ∀ c ∈ ['0'], c.isDigit = true by simp) (List.append_ne_nil_of_left_ne_nil (decimalDigits_ne_nil _) _)
    refine ⟨_, ?_, (readsAs_mul_pow10_iff d.coefficient (d.exponent.toNat + 1) d.exponent).2 h⟩
    rw [hexponent, ← hvalue, positional, if_pos hpos]
    exact hn

/-- **With an exponent a decimal is written as its numeral.** -/
theorem numeral_scientific (d : Decimal) : Numeral d.scientific d := by
  have hvalue := ofDecimalDigits_decimalDigits d.coefficient
  have hdigits : ∀ c ∈ decimalDigits d.coefficient, c.isDigit = true :=
    fun _ => isDigit_of_mem_decimalDigits
  have hexponent : Exponent ('e' :: (integerText d.leadingExponent).toList) d.leadingExponent :=
    .letter (.inl rfl) (signedDigits_integerText _)
  have hlead : d.leadingExponent = d.exponent + (decimalDigits d.coefficient).length - 1 := rfl
  have hne := decimalDigits_ne_nil d.coefficient
  unfold scientific
  generalize decimalDigits d.coefficient = digits at hvalue hdigits hlead hne
  generalize d.leadingExponent = e at hexponent hlead
  rcases digits with - | ⟨c, - | ⟨r, rs⟩⟩
  · exact absurd rfl hne
  · have he : e - ([] : List Char).length = d.exponent := by
      rw [hlead]
      simp
    have hn := Numeral.mk hdigits .none hexponent (.inl hne)
    rwa [List.append_nil, hvalue, he] at hn
  · have he : e - (r :: rs).length = d.exponent := by
      simp only [List.length_cons] at hlead ⊢
      omega
    rw [List.forall_mem_cons] at hdigits
    have hn := Numeral.mk (List.forall_mem_singleton.2 hdigits.1) (.point hdigits.2) hexponent
      (.inl (List.cons_ne_nil _ _))
    rwa [List.singleton_append, List.singleton_append, hvalue, he] at hn

end Decimal

/-! ### Binary64 numbers -/

/-- An unsigned numeral does not start with a sign. -/
theorem Numeral.head?_ne (h : Numeral cs d) : cs.head? ≠ some '-' := by
  cases h with
  | @mk whole part fraction exponent e hw hf he hne =>
      cases whole with
      | cons c whole =>
          rw [List.forall_mem_cons] at hw
          exact fun hc => (ne_sign_of_isDigit hw.1).1 (Option.some.inj hc)
      | nil =>
          cases hf with
          | none => simp at hne
          | point _ => exact fun hc => by cases hc

namespace Binary64

/-- A finite number is written as a numeral that reads as its magnitude, behind its sign. -/
theorem exists_text_finite (negative : Bool) (m : Magnitude) : ∃ cs d,
    (text (.finite negative m)).toList = (if negative then ['-'] else []) ++ cs ∧ Numeral cs d ∧
      d.ReadsAs m := by
  obtain ⟨d, hd, hreads⟩ := Decimal.exists_numeral_positional (Magnitude.readsAs_shortest m)
  unfold text
  dsimp only
  split
  · refine ⟨_, d, ?_, hd, hreads⟩
    cases negative <;> exact String.toList_ofList
  · refine ⟨_, _, ?_, Decimal.numeral_scientific _, Magnitude.readsAs_shortest m⟩
    cases negative <;> exact String.toList_ofList

/-- **The text of a finite number determines it.** -/
theorem text_finite_injective {s t : Bool} {m n : Magnitude}
    (h : text (.finite s m) = text (.finite t n)) : s = t ∧ m = n := by
  obtain ⟨cs, d, htext, hd, hm⟩ := exists_text_finite s m
  obtain ⟨cs', d', htext', hd', hn⟩ := exists_text_finite t n
  rw [← h, htext] at htext'
  obtain ⟨rfl, rfl⟩ := sign_append_inj hd.head?_ne hd'.head?_ne htext'
  obtain rfl := Option.some.inj ((ofNumeral?_of_numeral hd).symm.trans (ofNumeral?_of_numeral hd'))
  exact ⟨rfl, hm.unique hn⟩

end Binary64

end StackHeap.Number
