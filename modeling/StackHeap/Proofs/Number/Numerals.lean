import Mathlib.Data.List.TakeDrop
import Mathlib.Data.Nat.Digits.Defs
import StackHeap.Proofs.Text.Unambiguous
import StackHeap.Proofs.Typing.Holds

/-! # Numerals

`Numeral cs d` says that the text `cs` is an unsigned numeral, and that `d` is the decimal it stands
for: digits with an optional point, at least one digit in all, and an optional exponent.  Reading
finds exactly the numerals (`ofNumeral?_eq_some_iff`), because neither a point nor the letter of an
exponent is a digit: each run of digits ends where the grammar ends it.

A whole number of up to 64 bits keeps within the ceiling of `float` when its numeral is rounded
(`isWithin_toBinary64`). -/

namespace StackHeap.Number

open Text

/-! ### The grammar -/

/-- A point and the digits behind it, or nothing. -/
inductive Fraction : List Char → List Char → Prop where
  | none : Fraction [] []
  | point {digits : List Char} (hd : ∀ c ∈ digits, c.isDigit = true) :
      Fraction ('.' :: digits) digits

/-- The sign of an exponent, if there is one, and its digits. -/
inductive SignedDigits : List Char → Int → Prop where
  | bare {digits : List Char} (hd : ∀ c ∈ digits, c.isDigit = true) (hne : digits ≠ []) :
      SignedDigits digits (ofDecimalDigits digits)
  | plus {digits : List Char} (hd : ∀ c ∈ digits, c.isDigit = true) (hne : digits ≠ []) :
      SignedDigits ('+' :: digits) (ofDecimalDigits digits)
  | minus {digits : List Char} (hd : ∀ c ∈ digits, c.isDigit = true) (hne : digits ≠ []) :
      SignedDigits ('-' :: digits) (-(ofDecimalDigits digits : Int))

/-- An exponent behind its letter, or nothing. -/
inductive Exponent : List Char → Int → Prop where
  | none : Exponent [] 0
  | letter {c : Char} {cs : List Char} {e : Int} (hc : c = 'e' ∨ c = 'E') (h : SignedDigits cs e) :
      Exponent (c :: cs) e

/-- The text of an unsigned number, and the decimal that it stands for. -/
inductive Numeral : List Char → Decimal → Prop where
  | mk {whole part fraction exponent : List Char} {e : Int}
      (hw : ∀ c ∈ whole, c.isDigit = true) (hf : Fraction part fraction)
      (he : Exponent exponent e) (hne : whole ≠ [] ∨ fraction ≠ []) :
      Numeral (whole ++ (part ++ exponent))
        ⟨ofDecimalDigits (whole ++ fraction), e - fraction.length⟩

variable {cs digits : List Char} {e : Int} {d : Decimal}

/-! ### Reading -/

/-- A run of digits is some digits and what follows them. -/
theorem span_digits (cs : List Char) : ∃ digits rest, cs.span Char.isDigit = (digits, rest) ∧
    cs = digits ++ rest ∧ ∀ c ∈ digits, c.isDigit = true :=
  ⟨_, _, List.span_eq_takeWhile_dropWhile _ _, List.takeWhile_append_dropWhile.symm,
    List.all_eq_true.1 List.all_takeWhile⟩

theorem ne_sign_of_isDigit {c : Char} (h : c.isDigit = true) : c ≠ '-' ∧ c ≠ '+' := by
  constructor <;> rintro rfl <;> cases h

theorem readExponent?_eq_some_iff : Decimal.readExponent? cs = some e ↔ SignedDigits cs e := by
  -- The digits behind the sign, whatever it is.
  have key : ∀ (negative : Bool) (digits : List Char),
      (if digits.isEmpty || !digits.all Char.isDigit then none
        else some (if negative then -(ofDecimalDigits digits : Int) else ofDecimalDigits digits)) =
        some e ↔ (∀ c ∈ digits, c.isDigit = true) ∧ digits ≠ [] ∧
          e = if negative then -(ofDecimalDigits digits : Int) else ofDecimalDigits digits := by
    intro negative digits
    rw [← List.all_eq_true]
    cases digits with
    | nil => simp
    | cons c digits =>
        cases h : (c :: digits).all Char.isDigit
        · simp
        · simp [eq_comm]
  unfold Decimal.readExponent?
  split
  next negative digits hm =>
  rw [key]
  constructor
  · rintro ⟨hd, hne, rfl⟩
    split at hm <;> cases hm
    · exact .minus hd hne
    · exact .plus hd hne
    · exact .bare hd hne
  · intro h
    cases h with
    | bare hd hne =>
        split at hm
        · exact absurd rfl (ne_sign_of_isDigit (hd _ List.mem_cons_self)).1
        · exact absurd rfl (ne_sign_of_isDigit (hd _ List.mem_cons_self)).2
        · cases hm
          exact ⟨hd, hne, rfl⟩
    | plus hd hne =>
        cases hm
        exact ⟨hd, hne, rfl⟩
    | minus hd hne =>
        cases hm
        exact ⟨hd, hne, rfl⟩

theorem numeral_of_ofNumeral? (h : Decimal.ofNumeral? cs = some d) : Numeral cs d := by
  obtain ⟨whole, r, hspan, rfl, hw⟩ := span_digits cs
  unfold Decimal.ofNumeral? at h
  rw [hspan] at h
  dsimp only at h
  -- What stands behind the whole part: a fraction, or none, and the rest.
  have hfraction : ∃ part fraction rest, r = part ++ rest ∧ Fraction part fraction ∧
      Decimal.readFraction r = (fraction, rest) := by
    unfold Decimal.readFraction
    split
    · next r =>
        obtain ⟨fraction, rest, hs, rfl, hf⟩ := span_digits r
        exact ⟨'.' :: fraction, fraction, rest, rfl, .point hf, hs⟩
    · exact ⟨[], [], _, rfl, .none, rfl⟩
  obtain ⟨part, fraction, rest, rfl, hf, hread⟩ := hfraction
  rw [hread] at h
  dsimp only at h
  split at h
  · cases h
  · next hne =>
      have hne : whole ≠ [] ∨ fraction ≠ [] := by
        simpa [List.isEmpty_iff, ← not_and_or] using hne
      split at h
      · cases h
        have hn := Numeral.mk hw hf .none hne
        rwa [Int.zero_sub] at hn
      · split at h
        · next hc =>
            obtain ⟨e, he, rfl⟩ := Option.map_eq_some_iff.1 h
            exact .mk hw hf (.letter hc (readExponent?_eq_some_iff.1 he)) hne
        · cases h

theorem ofNumeral?_of_numeral (h : Numeral cs d) : Decimal.ofNumeral? cs = some d := by
  cases h with
  | @mk whole part fraction exponent e hw hf he hne =>
      have hexponent : ∀ c ∈ exponent.head?, c.isDigit = false ∧ c ≠ '.' := by
        intro c hc
        cases he with
        | none => cases hc
        | letter hletter _ =>
            cases hc
            rcases hletter with rfl | rfl <;> decide
      have hpart : ∀ c ∈ (part ++ exponent).head?, c.isDigit = false := by
        intro c hc
        cases hf with
        | none => exact (hexponent c hc).1
        | point _ =>
            cases hc
            decide
      have hread : Decimal.readFraction (part ++ exponent) = (fraction, exponent) := by
        cases hf with
        | none =>
            unfold Decimal.readFraction
            split
            · next r hr => exact absurd rfl (hexponent '.' (by rw [← List.nil_append exponent, hr]; rfl)).2
            · rfl
        | point hd => exact span_append_of_stops hd fun c hc => (hexponent c hc).1
      unfold Decimal.ofNumeral?
      rw [span_append_of_stops hw hpart]
      dsimp only
      rw [hread]
      dsimp only
      rw [if_neg (by simpa [List.isEmpty_iff, ← not_and_or] using hne)]
      cases he with
      | none => rw [Int.zero_sub]
      | letter hc h =>
          dsimp only
          rw [if_pos hc, readExponent?_eq_some_iff.2 h]
          rfl

/-- **Reading finds exactly the numerals.** -/
theorem ofNumeral?_eq_some_iff : Decimal.ofNumeral? cs = some d ↔ Numeral cs d :=
  ⟨numeral_of_ofNumeral?, ofNumeral?_of_numeral⟩

/-- A string of digits is a numeral of its value. -/
theorem Numeral.ofDigits (hd : ∀ c ∈ digits, c.isDigit = true) (hne : digits ≠ []) :
    Numeral digits ⟨ofDecimalDigits digits, 0⟩ := by
  have hn := Numeral.mk hd .none .none (.inl hne)
  simpa using hn

/-! ### Signs -/

/-- A minus sign can be told from a text that does not start with one. -/
theorem sign_append_inj {p q : Bool} {cs ds : List Char} (hc : cs.head? ≠ some '-')
    (hd : ds.head? ≠ some '-')
    (h : (if p then ['-'] else []) ++ cs = (if q then ['-'] else []) ++ ds) : p = q ∧ cs = ds := by
  cases p <;> cases q
  · exact ⟨rfl, h⟩
  · exact absurd (congrArg List.head? h) hc
  · exact absurd (congrArg List.head? h).symm hd
  · exact ⟨rfl, (List.cons.inj h).2⟩

/-! ### Whole numbers -/

theorem isWithin_finite {m c : Magnitude} (hm : m ≤ c) (negative : Bool) :
    (Binary64.finite negative m).isWithin c = true := decide_eq_true hm

theorem Magnitude.zero_le (m : Magnitude) : Magnitude.zero ≤ m := Nat.zero_le m.units

theorem isWithin_of_le {x : Binary64} {c d : Magnitude} (hcd : c ≤ d) (h : x.isWithin c = true) :
    x.isWithin d = true := by
  cases x with
  | finite s m => exact decide_eq_true (Magnitude.le_trans (of_decide_eq_true h) hcd)
  | nan => cases h
  | infinite s => cases h

/-- A whole number of up to 64 bits is rounded in one division. -/
theorem toBinary64_natural {n : Nat} (hn : n ≤ pow2 64) (negative : Bool) :
    (⟨n, 0⟩ : Decimal).toBinary64 negative =
      if n = 0 then .finite negative .zero else .ofRatio negative n 1 := by
  have hlength : (decimalDigits n).length ≤ 20 :=
    Nat.toDigits_length 10 n 20 (by decide) (Nat.lt_of_le_of_lt hn (by decide))
  unfold Decimal.toBinary64
  dsimp only
  by_cases h : n = 0
  · rw [if_pos (.inl h), if_pos h]
  · rw [if_neg (by omega), if_neg h, if_neg (by omega), if_pos (Int.le_refl 0)]
    simp [pow10]

/-- A whole number of up to 64 bits is within the ceiling of `float`. -/
theorem isWithin_toBinary64 {n : Nat} (hn : n ≤ pow2 64) (negative : Bool) :
    ((⟨n, 0⟩ : Decimal).toBinary64 negative).isWithin Primitive.floatCeiling = true := by
  rw [toBinary64_natural hn]
  split
  · exact isWithin_finite (Magnitude.zero_le _) negative
  · obtain ⟨m, hm, he⟩ := exists_ofRatio_eq negative hn
    rw [he]
    exact isWithin_finite hm negative

end StackHeap.Number
