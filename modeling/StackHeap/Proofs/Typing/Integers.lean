import StackHeap.Proofs.Typing.Literals

/-! # Whole numbers as literals

What the integral types make of a text.  A text *writes* an integer if its lexemes are an optional sign
and a number of decimal digits only, and then it writes the one that the digits denote in positional
notation, however many there are (`WritesInteger`).

* A text that writes an integer within the type is that value, and one that writes an integer outside it
  is refused for its range (`checkPrimitive_of_writesInteger`).
* `null` is refused as such, and everything else as no literal of the type
  (`checkPrimitive_of_not_writesInteger`).

So words of a fixed width leave no trace: nothing wraps and nothing is clamped
(`checkPrimitive_integral`). -/

namespace StackHeap.Typing

open Text Number Command

variable {type : Primitive} {cs : List Char} {ls : List Lexeme} {n m : Int} {b : Nat}

/-- The lexemes are an optional sign and a number made of decimal digits only, which denote `n`. -/
def WritesInteger (ls : List Lexeme) (n : Int) : Prop :=
  ∃ (negative : Bool) (digits : List Char) (magnitude : Nat),
    Signed ls negative digits ∧ (∀ c ∈ digits, c.isDigit = true) ∧
    magnitude = Nat.ofDigits 10 (digits.reverse.map digitValue) ∧
    n = if negative then -(magnitude : Int) else magnitude

theorem writesInteger_iff : WritesInteger ls n ↔
    ∃ negative digits, Signed ls negative digits ∧ (∀ c ∈ digits, c.isDigit = true) ∧
      n = signedInteger negative digits := by
  simp only [WritesInteger, signedInteger, ← ofDecimalDigits_eq_ofDigits, exists_and_left,
    exists_eq_left]

theorem WritesInteger.unique (h : WritesInteger ls n) (h' : WritesInteger ls m) : n = m := by
  obtain ⟨negative, digits, magnitude, hs, -, rfl, rfl⟩ := h
  obtain ⟨negative', digits', magnitude', hs', -, rfl, rfl⟩ := h'
  obtain ⟨rfl, rfl⟩ := hs.unique hs'
  rfl

theorem not_writesInteger_null : ¬WritesInteger [.keyword .null] n := by
  rintro ⟨negative, digits, magnitude, hs, -⟩
  cases hs

/-! ### What is checked -/

/-- The range of a type whose values take up a number of bits. -/
theorem integerRange?_of_bits? (hb : type.bits? = some b) :
    type.integerRange? = some (-(pow2 (b - 1) : Int), (pow2 (b - 1) : Int) - 1) := by
  rw [Primitive.integerRange?, hb]
  rfl

theorem checkPrimitive_of_lexes (h : Lexes cs ls) :
    checkPrimitive type cs = checkLexemes type (String.ofList (trim cs)) ls := by
  unfold checkPrimitive
  rw [lexemes?_eq_some_iff.2 h.trim]

/-- A text that cannot be read is no literal. -/
theorem checkPrimitive_of_not_readable (h : lexemes? cs = none) :
    checkPrimitive type cs = .error (.invalid type (String.ofList (trim cs))) := by
  have htrim : lexemes? (trim cs) = none := by
    rw [Option.eq_none_iff_forall_ne_some] at h ⊢
    intro ls hl
    exact h ls (lexemes?_eq_some_iff.2 (lexes_trim_iff.1 (lexemes?_eq_some_iff.1 hl)))
  unfold checkPrimitive
  rw [htrim]

/-- An integral type takes numbers only. -/
theorem checkLexemes_integral {range : Int × Int} (hr : type.integerRange? = some range)
    (literal : String) (hn : ls ≠ [.keyword .null]) :
    checkLexemes type literal ls = match signedNumber? ls with
      | some (negative, digits) => checkInteger type range literal negative digits
      | none => .error (.invalid type literal) := by
  unfold checkLexemes
  split
  · exact absurd rfl hn
  · cases hr
  · cases hr
  · cases hr
  · cases hr
  · rw [hr]
    cases signedNumber? ls <;> rfl

theorem checkPrimitive_of_writesInteger (hb : type.bits? = some b) (h : Lexes cs ls)
    (hn : WritesInteger ls n) :
    checkPrimitive type cs =
      if -(pow2 (b - 1) : Int) ≤ n ∧ n < pow2 (b - 1) then .ok (.int n)
      else .error (.outOfRange type (String.ofList (trim cs))) := by
  have hr := integerRange?_of_bits? hb
  obtain ⟨negative, digits, hs, hd, rfl⟩ := writesInteger_iff.1 hn
  rw [checkPrimitive_of_lexes h, checkLexemes_signed hs, hr]
  dsimp only
  rw [checkInteger_eq hr _ (hs.digits_ne_nil h) hd]
  exact if_congr (by omega) rfl rfl

theorem checkPrimitive_of_not_writesInteger (hb : type.bits? = some b) (h : Lexes cs ls)
    (hnull : ls ≠ [.keyword .null]) (hn : ∀ n, ¬WritesInteger ls n) :
    checkPrimitive type cs = .error (.invalid type (String.ofList (trim cs))) := by
  have hr := integerRange?_of_bits? hb
  rw [checkPrimitive_of_lexes h, checkLexemes_integral hr _ hnull]
  split
  · next negative digits hs =>
      refine checkInteger_invalid _ (.inr fun hd => hn (signedInteger negative digits) ?_)
      exact writesInteger_iff.2 ⟨negative, digits, signedNumber?_eq_some_iff.1 hs, hd, rfl⟩
  · rfl

/-- **Integer literals are read exactly.**  A text is a value of an integral type if and only if it
writes an integer within it, and then it is that integer; it is refused for its range if and only if it
writes an integer outside. -/
theorem checkPrimitive_integral (hb : type.bits? = some b) (cs : List Char) :
    (∀ v, checkPrimitive type cs = .ok v ↔ ∃ ls n, lexemes? cs = some ls ∧ WritesInteger ls n ∧
      (-(2 ^ (b - 1) : Int) ≤ n ∧ n < 2 ^ (b - 1)) ∧ v = .int n) ∧
    (checkPrimitive type cs = .error (.outOfRange type (String.ofList (trim cs))) ↔
      ∃ ls n, lexemes? cs = some ls ∧ WritesInteger ls n ∧
        ¬(-(2 ^ (b - 1) : Int) ≤ n ∧ n < 2 ^ (b - 1))) ∧
    (checkPrimitive type cs = .error (.null type) ↔ lexemes? cs = some [.keyword .null]) ∧
    (checkPrimitive type cs = .error (.invalid type (String.ofList (trim cs))) ↔
      lexemes? cs ≠ some [.keyword .null] ∧
        ∀ ls n, lexemes? cs = some ls → ¬WritesInteger ls n) := by
  have hpow : (2 ^ (b - 1) : Int) = pow2 (b - 1) := by
    rw [pow2]
    norm_cast
  rw [hpow]
  rcases hread : lexemes? cs with _ | ls
  · rw [checkPrimitive_of_not_readable hread]
    simp
  · have h := lexemes?_eq_some_iff.1 hread
    by_cases hnull : ls = [.keyword .null]
    · subst hnull
      have hrefused : checkPrimitive type cs = .error (.null type) := by
        rw [checkPrimitive_of_lexes h]
        rfl
      rw [hrefused]
      simp [not_writesInteger_null]
    · by_cases hn : ∃ n, WritesInteger ls n
      · obtain ⟨n, hn⟩ := hn
        have honly : ∀ m, WritesInteger ls m ↔ m = n :=
          fun m => ⟨fun hm => hm.unique hn, fun hm => hm ▸ hn⟩
        rw [checkPrimitive_of_writesInteger hb h hn]
        by_cases hin : -(pow2 (b - 1) : Int) ≤ n ∧ n < pow2 (b - 1)
        · simp [honly, hnull, hin, eq_comm]
        · rw [if_neg hin]
          simp [honly, hnull, -not_and, hin]
      · rw [not_exists] at hn
        rw [checkPrimitive_of_not_writesInteger hb h hnull hn]
        refine ⟨?_, ?_, ?_, ?_⟩
        · simp [hn]
        · simp [hn]
        · simp [hnull]
        · simp only [Option.some.injEq, ne_eq, hnull, not_false_eq_true, true_and, true_iff]
          rintro ls' n rfl
          exact hn n

/-- Leading zeros do not count and the least value of `long` is read; a digit string far beyond any word
is refused for its range. -/
theorem checkPrimitive_integral_extremes :
    Primitive.long.bits? = some 64 ∧
    checkPrimitive .long " -000009223372036854775808 ".toList = .ok (.int (-9223372036854775808)) ∧
    checkPrimitive .long "680564733841876926926749214863536422912".toList =
      .error (.outOfRange .long "680564733841876926926749214863536422912") := by
  obtain ⟨hok, -⟩ := checkPrimitive_integral (show Primitive.long.bits? = some 64 from rfl)
    " -000009223372036854775808 ".toList
  obtain ⟨-, hrange, -⟩ := checkPrimitive_integral (show Primitive.long.bits? = some 64 from rfl)
    "680564733841876926926749214863536422912".toList
  have hleast : WritesInteger [.mark .minus, .number "000009223372036854775808"]
      (-9223372036854775808) :=
    ⟨true, _, 9223372036854775808, .minus _, List.all_eq_true.1 (by decide), by decide +kernel, by decide⟩
  have hlarge : WritesInteger [.number "680564733841876926926749214863536422912"]
      680564733841876926926749214863536422912 :=
    ⟨false, _, 680564733841876926926749214863536422912, .bare _, List.all_eq_true.1 (by decide),
      by decide +kernel, by decide⟩
  refine ⟨rfl, (hok _).2 ⟨_, _, by decide +kernel, hleast, by decide, rfl⟩, ?_⟩
  exact hrange.2 ⟨_, _, by decide +kernel, hlarge, by decide⟩

end StackHeap.Typing
