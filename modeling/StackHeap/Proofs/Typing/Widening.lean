import StackHeap.Proofs.Store.Outcome
import StackHeap.Proofs.Typing.Literals

/-! # Literals and variables of one value

A place of a wider type can be given a value by a literal or by a variable that holds the literal's
value in its natural type.  The literal is read by the grammar of the wider type where that has it; the
variable's value is converted.

* **Integers.**  The digits of an integer are rounded to the number that the integer is converted to
  (`toBinary64_eq_ofInt`), beyond 53 bits as well.  Only the sign of zero tells the two apart: an
  integer has none, and a floating literal keeps it.
* **Characters** are no literals of any other type, so both ways convert them.
* **All other types** are accepted by themselves only, and nothing is converted
  (`LiteralOf.widen_eq_self`).

So a literal and a variable give the same value, with the one exception of a minus sign before zeros in
a place of a floating type (`literal_widens_like_variable`). -/

namespace StackHeap.Typing

open Text Number Command Store

variable {p natural : Primitive} {v : Value} {cs digits : List Char} {ls : List Lexeme}
  {negative : Bool}

/-- The text is a minus sign and a number of zeros only. -/
def IsNegativeZero (cs : List Char) : Prop :=
  ∃ s : String, lexemes? cs = some [.mark .minus, .number s] ∧ ∀ c ∈ s.toList, c = '0'

theorem isNegativeZero_iff (h : Lexes cs ls) (hs : Signed ls negative digits) :
    IsNegativeZero cs ↔ negative = true ∧ ∀ c ∈ digits, c = '0' := by
  unfold IsNegativeZero
  simp only [lexemes?_eq_some_iff]
  constructor
  · rintro ⟨s, hl, hz⟩
    obtain ⟨rfl, rfl⟩ := (hl.unique h ▸ hs).unique (.minus s)
    exact ⟨rfl, hz⟩
  · rintro ⟨rfl, hz⟩
    cases hs with
    | minus s => exact ⟨s, h, hz⟩

/-- What is no number is no negative zero. -/
theorem not_isNegativeZero (h : Lexes cs ls) (hs : ∀ negative digits, ¬Signed ls negative digits) :
    ¬IsNegativeZero cs := by
  rintro ⟨s, hl, -⟩
  obtain rfl := (lexemes?_eq_some_iff.1 hl).unique h
  exact hs _ _ (.minus s)

/-! ### Values of a literal -/

/-- A literal of a type has the form that the type uses. -/
theorem LiteralOf.widen_eq_self (h : LiteralOf p ls v) : v.widen p = v := by
  cases h with
  | yes => rfl
  | no => rfl
  | char hc => rfl
  | text s => rfl
  | integer hs hd hn =>
      obtain ⟨range, hr, -⟩ := hn
      rw [Value.widen_int, Primitive.isFloating_of_integerRange? hr]
      rfl
  | decimal hc hs hd hw => rfl

/-- The digits of an integer round to the number that the integer is converted to, the sign of zero
apart. -/
theorem toBinary64_eq_ofInt (hk : ofDecimalDigits digits ≤ pow2 64) (negative : Bool) :
    (⟨ofDecimalDigits digits, 0⟩ : Decimal).toBinary64 negative =
      if negative = true ∧ ofDecimalDigits digits = 0 then .finite true .zero
      else .ofInt (signedInteger negative digits) := by
  rw [toBinary64_natural hk, signedInteger]
  generalize ofDecimalDigits digits = n
  by_cases hn : n = 0
  · subst hn
    cases negative
    · decide +kernel
    · rfl
  · rw [if_neg hn, if_neg fun h => hn h.2, Binary64.ofInt]
    cases negative with
    | false =>
        have hsign : ¬(n : Int) < 0 := by omega
        simp [hsign]
    | true =>
        have hsign : -(n : Int) < 0 := by omega
        rw [if_pos rfl, Int.natAbs_neg, Int.natAbs_natCast, decide_eq_true hsign]

/-- In a place that accepts the type of an integer, only a negative zero is not the converted
integer. -/
theorem literalOf_widened (hs : Signed ls negative digits) (hd : ∀ c ∈ digits, c.isDigit = true)
    (hne : digits ≠ []) (hn : natural.InRange (signedInteger negative digits))
    (ha : p.accepts natural = true) :
    LiteralOf p ls (if (negative = true ∧ ofDecimalDigits digits = 0) ∧ p.isFloating = true then
        .float (.finite true .zero)
      else (Value.int (signedInteger negative digits)).widen p) := by
  have hl := literalOf_of_accepts hs hd hne hn ha
  rw [toBinary64_eq_ofInt (ofDecimalDigits_le_of_inRange hn)] at hl
  rw [Value.widen_int]
  by_cases hf : p.isFloating = true
  · by_cases hz : negative = true ∧ ofDecimalDigits digits = 0
    · rw [if_pos hf, if_pos hz] at hl
      rwa [if_pos ⟨hz, hf⟩]
    · rw [if_pos hf, if_neg hz] at hl
      rwa [if_neg fun h => hz h.1, if_pos hf]
  · rw [if_neg hf] at hl
    rwa [if_neg fun h => hf h.2, if_neg hf]

/-! ### Both ways -/

/-- What the check for storage makes of a literal that is `v` in its natural type. -/
inductive Stored (p : Primitive) (cs : List Char) (v : Value) : Prop where
  | widened (hz : ¬(IsNegativeZero cs ∧ p.isFloating = true))
      (h : checkAssignable p cs = .ok (v.widen p)) : Stored p cs v
  | negativeZero (hz : IsNegativeZero cs) (hf : p.isFloating = true) (hv : v = .int 0)
      (h : checkAssignable p cs = .ok (.float (.finite true .zero))) : Stored p cs v

/-- A type that only itself accepts keeps its literals. -/
theorem stored_of_eq (h : Lexes cs ls) (hv : LiteralOf p ls v) (hz : ¬IsNegativeZero cs) :
    Stored p cs v := by
  refine .widened (fun hc => hz hc.1) ?_
  rw [hv.widen_eq_self]
  exact (checkAssignable_eq_ok_iff h).2 (.literal hv)

theorem stored_integer (h : Lexes cs ls) (hs : Signed ls negative digits)
    (hd : ∀ c ∈ digits, c.isDigit = true) (hn : natural.InRange (signedInteger negative digits))
    (ha : p.accepts natural = true) : Stored p cs (.int (signedInteger negative digits)) := by
  have hl := literalOf_widened hs hd (hs.digits_ne_nil h) hn ha
  have hz := isNegativeZero_iff h hs
  rw [← ofDecimalDigits_eq_zero_iff hd] at hz
  by_cases hc : (negative = true ∧ ofDecimalDigits digits = 0) ∧ p.isFloating = true
  · rw [if_pos hc] at hl
    refine .negativeZero (hz.2 hc.1) hc.2 ?_ ((checkAssignable_eq_ok_iff h).2 (.literal hl))
    rw [signedInteger, hc.1.2]
    simp
  · rw [if_neg hc] at hl
    exact .widened (fun hzf => hc ⟨hz.1 hzf.1, hzf.2⟩)
      ((checkAssignable_eq_ok_iff h).2 (.literal hl))

theorem stored_of_naturalType (h : Lexes cs ls) (hn : NaturalType ls natural)
    (hv : LiteralOf natural ls v) (ha : p.accepts natural = true) : Stored p cs v := by
  -- Only numbers and characters are accepted by a type other than their own.
  have hself : natural = .boolean ∨ natural = .string ∨ natural = .double → p = natural := by
    rintro (rfl | rfl | rfl) <;> revert ha <;> cases p <;> decide
  cases hn with
  | yes =>
      obtain rfl := hself (.inl rfl)
      exact stored_of_eq h hv (not_isNegativeZero h fun _ _ hs => by cases hs)
  | no =>
      obtain rfl := hself (.inl rfl)
      exact stored_of_eq h hv (not_isNegativeZero h fun _ _ hs => by cases hs)
  | text s =>
      obtain rfl := hself (.inr (.inl rfl))
      exact stored_of_eq h hv (not_isNegativeZero h fun _ _ hs => by cases hs)
  | double hs hw hd =>
      obtain rfl := hself (.inr (.inr rfl))
      refine stored_of_eq h hv fun hz => hw fun c hc => ?_
      rw [((isNegativeZero_iff h hs).1 hz).2 c hc]
      rfl
  | char s =>
      have hz := not_isNegativeZero h fun _ _ hs => by cases hs
      cases hv with
      | char hc => exact .widened (fun hc => hz hc.1) ((checkAssignable_eq_ok_iff h).2 (.char ha hc))
      | integer hs _ _ => cases hs
      | decimal _ hs _ _ => cases hs
  | int hs hd hn =>
      cases hv with
      | integer hs' hd' hn' => exact stored_integer h hs' hd' hn' ha
      | decimal hc _ _ _ => cases hc
  | long hs hd hn =>
      cases hv with
      | integer hs' hd' hn' => exact stored_integer h hs' hd' hn' ha
      | decimal hc _ _ _ => cases hc

theorem exists_lexes_of_naturalType? (hn : naturalType? cs = some natural) : ∃ ls, Lexes cs ls := by
  unfold naturalType? at hn
  obtain ⟨ls, hl, -⟩ := Option.bind_eq_some_iff.1 hn
  exact ⟨ls, lexes_trim_iff.1 (lexemes?_eq_some_iff.1 hl)⟩

/-- Copying a variable converts its value. -/
theorem assign_widened {m : Memory} {id : Nat} {f : Frame} {target source : String} {t x : Slot}
    (ha : p.accepts natural = true) (hf : m.stack.frame? id = some f) (ht : f.slot? target = some t)
    (hp : t.type = .primitive p) (hx : f.slot? source = some x) (hn : x.type = .primitive natural) :
    Memory.assign id target source m = .ok [] (m.written id target (x.value.widen p)) := by
  have hacc : t.type.accepts x.type = true := by rw [hp, hn]; exact ha
  rw [Memory.assignValue_ok hf ht hx hacc (by rw [hp]; rfl), Slot.valueAs, hp]
  rfl

/-- **A literal and a variable give the same value, a negative zero apart.**  Let a literal be `v` in its
natural type, and let a type accept that type.  Storing the literal there works, and gives the value that
copying a variable of value `v` gives, except that a floating type keeps the sign of a negative
zero. -/
theorem literal_widens_like_variable (hn : naturalType? cs = some natural)
    (hv : checkPrimitive natural cs = .ok v) (ha : p.accepts natural = true) :
    ∃ w, checkAssignable p cs = .ok w ∧
      (w = v.widen p ↔ ¬(IsNegativeZero cs ∧ p.isFloating = true)) ∧
      (IsNegativeZero cs ∧ p.isFloating = true →
        w.display = "-0.0" ∧ (v.widen p).display = "0.0") ∧
      ∀ (m : Memory) (id : Nat) (f : Frame) (target source : String) (t x : Slot),
        m.stack.frame? id = some f → f.slot? target = some t → t.type = .primitive p →
        f.slot? source = some x → x.type = .primitive natural → x.value = v →
        Memory.assign id target source m = .ok [] (m.written id target (v.widen p)) := by
  obtain ⟨ls, hl⟩ := exists_lexes_of_naturalType? hn
  have hcopy : ∀ (m : Memory) (id : Nat) (f : Frame) (target source : String) (t x : Slot),
      m.stack.frame? id = some f → f.slot? target = some t → t.type = .primitive p →
      f.slot? source = some x → x.type = .primitive natural → x.value = v →
      Memory.assign id target source m = .ok [] (m.written id target (v.widen p)) := by
    rintro m id f target source t x hf ht hp hx hnat rfl
    exact assign_widened ha hf ht hp hx hnat
  cases stored_of_naturalType hl ((naturalType?_eq_some_iff hl).1 hn)
    ((checkPrimitive_eq_ok_iff hl).1 hv) ha with
  | widened hz h => exact ⟨_, h, ⟨fun _ => hz, fun _ => rfl⟩, fun hc => absurd hc hz, hcopy⟩
  | negativeZero hz hf hv h =>
      subst hv
      have hzero : (Value.int 0).widen p = .float (.finite false .zero) := by
        rw [Value.widen_int, if_pos hf]
        decide +kernel
      refine ⟨_, h, ⟨fun he => ?_, fun hc => absurd ⟨hz, hf⟩ hc⟩, fun _ => ⟨?_, ?_⟩, hcopy⟩
      · rw [hzero] at he
        cases he
      · decide +kernel
      · rw [hzero]
        decide +kernel

/-- The nearest number to an integer of 54 bits, by a literal and by a variable. -/
theorem literal_widens_like_variable_rounded :
    let l := "-9007199254740993".toList
    let v := Value.int (-9007199254740993)
    let m := ((Memory.new {}).declared 0 "i" (.primitive .long) v).declared 0 "d"
      (.primitive .double) (.float (.ofNat 0))
    (naturalType? l = some .long ∧ checkPrimitive .long l = .ok v ∧
      Primitive.double.accepts .long = true) ∧
      checkAssignable .double l = .ok (v.widen .double) ∧
      (v.widen .double).display = "-9007199254740992.0" ∧
      Memory.assign 0 "d" "i" m = .ok [] (m.written 0 "d" (v.widen .double)) := by
  intro l v m
  have hn : naturalType? l = some .long := by decide +kernel
  have hv : checkPrimitive .long l = .ok v := by decide +kernel
  obtain ⟨w, hw, hiff, -, hcopy⟩ := literal_widens_like_variable (p := .double) hn hv rfl
  have hz : ¬(IsNegativeZero l ∧ Primitive.double.isFloating = true) := by
    rintro ⟨⟨s, hs, hzeros⟩, -⟩
    have hl : lexemes? l = some [.mark .minus, .number "9007199254740993"] := by decide +kernel
    obtain rfl : "9007199254740993" = s := by
      have he := Option.some.inj (hl.symm.trans hs)
      simpa using he
    exact absurd (hzeros '9' (by decide)) (by decide)
  rw [hiff.2 hz] at hw
  refine ⟨⟨hn, hv, rfl⟩, hw, by decide +kernel, ?_⟩
  exact hcopy m 0 _ "d" "i" _ _ rfl rfl rfl rfl rfl rfl

/-- A literal is not always the value of the variable that it could have been copied from. -/
theorem literal_keeps_negative_zero : ¬∀ (cs : List Char) (natural p : Primitive) (v : Value),
    naturalType? cs = some natural → checkPrimitive natural cs = .ok v →
    p.accepts natural = true → checkAssignable p cs = .ok (v.widen p) := by
  intro h
  have hzero := h "-0".toList .int .double (.int 0) (by decide +kernel) (by decide +kernel) rfl
  exact absurd hzero (by decide +kernel)

end StackHeap.Typing
