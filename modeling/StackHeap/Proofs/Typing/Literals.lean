import StackHeap.Proofs.Command.Slices
import StackHeap.Proofs.Number.Digits
import StackHeap.Proofs.Number.Numerals

/-! # Literals and their lexemes

Which literals a type has, as relations on lexemes, beside the checks.

* `LiteralOf p ls v`: the lexemes `ls` are a literal of type `p` with value `v`.
* `NaturalType ls p`: `p` is the type of `ls` by itself.
* `Assignable p ls v`: `ls` may be stored in a place of type `p`, as `v`.  Besides the literals of `p`
  itself these are only character literals, where `p` accepts characters: a whole number that is
  within a type is within every type that accepts it, so it is a literal of that type already
  (`exists_literalOf_of_accepts`).

A check passes exactly if the relation holds of the lexemes of its text, blanks at the ends or
not. -/

namespace StackHeap

open Number

/-! ### Types -/

namespace Primitive

variable {p : Primitive}

theorem ofName?_eq_some_iff {name : String} : ofName? name = some p ↔ name = p.name := by
  constructor
  · intro h
    unfold ofName? at h
    split at h <;> cases h <;> rfl
  · rintro rfl
    exact ofName?_name p

theorem isFloating_of_integerRange? {range : Int × Int} (h : p.integerRange? = some range) :
    p.isFloating = false := by
  cases p <;> first | rfl | cases h

/-- An integer is within the range of an integral type. -/
def InRange (p : Primitive) (n : Int) : Prop :=
  ∃ range, p.integerRange? = some range ∧ range.1 ≤ n ∧ n ≤ range.2

theorem inRange_iff {n : Int} : p.InRange n ↔
    ∃ b, p.bits? = some b ∧ -(pow2 (b - 1) : Int) ≤ n ∧ n < pow2 (b - 1) := by
  unfold InRange integerRange?
  constructor
  · rintro ⟨range, hr, hl, hu⟩
    obtain ⟨b, hb, rfl⟩ := Option.map_eq_some_iff.1 hr
    dsimp only at hl hu
    exact ⟨b, hb, hl, by omega⟩
  · rintro ⟨b, hb, hl, hu⟩
    exact ⟨_, by rw [hb]; rfl, hl, by dsimp only; omega⟩

end Primitive

namespace DeclaredType

theorem primitive?_ofName (name : String) :
    (ofName name).primitive? = Primitive.ofName? name := by
  unfold ofName
  cases Primitive.ofName? name <;> rfl

theorem ofName_eq_object {name : String} (h : Primitive.ofName? name = none) :
    ofName name = .object name := by
  rw [ofName, h]
  rfl

theorem ofName_eq_primitive_iff {name : String} {p : Primitive} :
    ofName name = .primitive p ↔ name = p.name := by
  rw [← Primitive.ofName?_eq_some_iff, ofName]
  cases Primitive.ofName? name <;> simp

theorem ofName_eq_object_iff {name category : String} :
    ofName name = .object category ↔ Primitive.ofName? name = none ∧ name = category := by
  rw [ofName]
  cases Primitive.ofName? name <;> simp

/-- A word names a reference type exactly if it names no primitive type. -/
theorem isReference_ofName_iff {name : String} :
    (ofName name).isReference = true ↔ Primitive.ofName? name = none := by
  rw [ofName]
  cases Primitive.ofName? name <;> simp [isReference]

end DeclaredType

namespace Typing

open Text Command

/-- An integer from its sign and digits. -/
def signedInteger (negative : Bool) (digits : List Char) : Int :=
  if negative then -(ofDecimalDigits digits : Int) else ofDecimalDigits digits

/-- A number with an optional sign, as its sign and its digits. -/
inductive Signed : List Lexeme → Bool → List Char → Prop where
  | bare (s : String) : Signed [.number s] false s.toList
  | plus (s : String) : Signed [.mark .plus, .number s] false s.toList
  | minus (s : String) : Signed [.mark .minus, .number s] true s.toList

/-- The literals of a primitive type, with their values. -/
inductive LiteralOf : Primitive → List Lexeme → Value → Prop where
  | yes : LiteralOf .boolean [.keyword .yes] (.bool true)
  | no : LiteralOf .boolean [.keyword .no] (.bool false)
  | char {s : String} {c : Char} (hc : s.toList = [c]) : LiteralOf .char [.charLiteral s] (.char c)
  | text (s : String) : LiteralOf .string [.stringLiteral s] (.text s)
  | integer {p : Primitive} {ls : List Lexeme} {negative : Bool} {digits : List Char}
      (hs : Signed ls negative digits) (hd : ∀ c ∈ digits, c.isDigit = true)
      (hn : p.InRange (signedInteger negative digits)) :
      LiteralOf p ls (.int (signedInteger negative digits))
  | decimal {p : Primitive} {ls : List Lexeme} {negative : Bool} {digits : List Char}
      {ceiling : Magnitude} {d : Decimal} (hc : p.ceiling? = some ceiling)
      (hs : Signed ls negative digits) (hd : Numeral digits d)
      (hw : (d.toBinary64 negative).isWithin ceiling = true) :
      LiteralOf p ls (.float (d.toBinary64 negative))

/-- The type that a literal has by itself. -/
inductive NaturalType : List Lexeme → Primitive → Prop where
  | yes : NaturalType [.keyword .yes] .boolean
  | no : NaturalType [.keyword .no] .boolean
  | char (s : String) : NaturalType [.charLiteral s] .char
  | text (s : String) : NaturalType [.stringLiteral s] .string
  | int {ls : List Lexeme} {negative : Bool} {digits : List Char} (hs : Signed ls negative digits)
      (hd : ∀ c ∈ digits, c.isDigit = true)
      (hn : Primitive.int.InRange (signedInteger negative digits)) : NaturalType ls .int
  | long {ls : List Lexeme} {negative : Bool} {digits : List Char} (hs : Signed ls negative digits)
      (hd : ∀ c ∈ digits, c.isDigit = true)
      (hn : ¬Primitive.int.InRange (signedInteger negative digits)) : NaturalType ls .long
  | double {ls : List Lexeme} {negative : Bool} {digits : List Char} {d : Decimal}
      (hs : Signed ls negative digits) (hw : ¬∀ c ∈ digits, c.isDigit = true)
      (hd : Numeral digits d) : NaturalType ls .double

/-- What may be stored in a place of a primitive type, with the value that is stored. -/
inductive Assignable (p : Primitive) : List Lexeme → Value → Prop where
  | literal {ls : List Lexeme} {v : Value} (h : LiteralOf p ls v) : Assignable p ls v
  | char {s : String} {c : Char} (ha : p.accepts .char = true) (hc : s.toList = [c]) :
      Assignable p [.charLiteral s] ((Value.char c).widen p)

variable {p type : Primitive} {v : Value} {cs digits : List Char} {ls : List Lexeme}
  {negative : Bool}

/-! ### Numbers -/

theorem signedNumber?_eq_some_iff :
    signedNumber? ls = some (negative, digits) ↔ Signed ls negative digits := by
  constructor
  · intro h
    unfold signedNumber? at h
    split at h <;> cases h
    · exact .bare _
    · exact .plus _
    · exact .minus _
  · rintro (s | s | s) <;> rfl

theorem Signed.unique {negative' : Bool} {digits' : List Char} (h : Signed ls negative digits)
    (h' : Signed ls negative' digits') : negative = negative' ∧ digits = digits' := by
  have he := (signedNumber?_eq_some_iff.2 h).symm.trans (signedNumber?_eq_some_iff.2 h')
  exact Prod.mk.inj (Option.some.inj he)

theorem number_ne_nil_of_lexes {s : String} (h : Lexes cs ls) (hs : .number s ∈ ls) :
    s.toList ≠ [] := by
  induction h with
  | nil => cases hs
  | blank _ _ ih => exact ih hs
  | lexeme hspell _ ih =>
      rcases List.mem_cons.1 hs with rfl | hs
      · generalize hl : Lexeme.number s = l at hspell
        cases hspell with
        | number _ _ =>
            rw [Lexeme.number.inj hl, String.toList_ofList]
            exact List.cons_ne_nil _ _
        | word _ _ _ =>
            unfold wordLexeme at hl
            cases hk : Keyword.ofName? _ <;> rw [hk] at hl <;> cases hl
        | _ => cases hl
      · exact ih hs

theorem Signed.digits_ne_nil (hs : Signed ls negative digits) (h : Lexes cs ls) : digits ≠ [] := by
  cases hs with
  | bare s => exact number_ne_nil_of_lexes h List.mem_cons_self
  | plus s => exact number_ne_nil_of_lexes h (List.mem_cons_of_mem _ List.mem_cons_self)
  | minus s => exact number_ne_nil_of_lexes h (List.mem_cons_of_mem _ List.mem_cons_self)

theorem ofDecimalDigits_le_of_inRange (hn : p.InRange (signedInteger negative digits)) :
    ofDecimalDigits digits ≤ pow2 64 := by
  obtain ⟨b, hb, hl, hu⟩ := Primitive.inRange_iff.1 hn
  have hbits := Primitive.bits?_le hb
  have h64 : pow2 (b - 1) ≤ pow2 64 := pow2_le_pow2 (by omega)
  unfold signedInteger at hl hu
  cases negative <;> simp only [if_true, if_false, Bool.false_eq_true] at hl hu <;> omega

/-- The value of a whole number for a type that accepts a type it is within. -/
theorem literalOf_of_accepts {natural : Primitive} (hs : Signed ls negative digits)
    (hd : ∀ c ∈ digits, c.isDigit = true) (hne : digits ≠ [])
    (hn : natural.InRange (signedInteger negative digits)) (ha : p.accepts natural = true) :
    LiteralOf p ls (if p.isFloating then
        .float ((⟨ofDecimalDigits digits, 0⟩ : Decimal).toBinary64 negative)
      else .int (signedInteger negative digits)) := by
  obtain ⟨b, hb, hl, hu⟩ := Primitive.inRange_iff.1 hn
  rcases Primitive.integral_of_accepts ha hb with hf | ⟨hf, c, hc, hbc⟩
  · obtain ⟨ceiling, hceiling, hle⟩ := Primitive.exists_ceiling?_of_isFloating hf
    have hwithin := isWithin_toBinary64 (ofDecimalDigits_le_of_inRange hn) negative
    rw [if_pos hf]
    exact .decimal hceiling hs (.ofDigits hd hne) (isWithin_of_le hle hwithin)
  · have hle : pow2 (b - 1) ≤ pow2 (c - 1) := pow2_le_pow2 (by omega)
    rw [hf, if_neg Bool.false_ne_true]
    exact .integer hs hd (Primitive.inRange_iff.2 ⟨c, hc, by omega, by omega⟩)

/-- **A whole number within a type is a literal of every type that accepts it.** -/
theorem exists_literalOf_of_accepts {natural : Primitive} (hs : Signed ls negative digits)
    (hd : ∀ c ∈ digits, c.isDigit = true) (hne : digits ≠ [])
    (hn : natural.InRange (signedInteger negative digits)) (ha : p.accepts natural = true) :
    ∃ v, LiteralOf p ls v := ⟨_, literalOf_of_accepts hs hd hne hn ha⟩

/-! ### Typing against a type -/

/-- A word of 128 bits is wide enough to tell whether an integer is within a type, and one of 64 to
keep it if it is. -/
theorem checkInteger_eq {range : Int × Int} (hr : type.integerRange? = some range) (literal : String)
    (hne : digits ≠ []) (hd : ∀ c ∈ digits, c.isDigit = true) :
    checkInteger type range literal negative digits =
      if range.1 ≤ signedInteger negative digits ∧ signedInteger negative digits ≤ range.2 then
        .ok (.int (signedInteger negative digits))
      else .error (.outOfRange type literal) := by
  obtain ⟨b, hb, rfl⟩ := Option.map_eq_some_iff.1 hr
  have hbits := Primitive.bits?_le hb
  have h127 : pow2 (b - 1) < pow2 127 := by
    have hle : pow2 (b - 1) ≤ pow2 126 := pow2_le_pow2 (by omega)
    have hdouble : pow2 127 = pow2 126 * 2 := pow2_succ 126
    have := pow2_pos 126
    omega
  have hread := fun n => @ofDecimalDigitsBelow?_eq_some_iff (pow2 127) n digits (pow2_pos 127)
  have hsigned : signedInteger negative digits =
      if negative then -(ofDecimalDigits digits : Int) else ofDecimalDigits digits := rfl
  unfold checkInteger
  rw [List.all_eq_true.2 hd, List.isEmpty_eq_false_iff.2 hne, if_neg (by decide)]
  cases hm : ofDecimalDigitsBelow? (pow2 127) digits with
  | none =>
      have hlarge : pow2 127 ≤ ofDecimalDigits digits := by
        by_contra hsmall
        rw [(hread _).2 ⟨rfl, by omega⟩] at hm
        cases hm
      refine (if_neg ?_).symm
      rw [hsigned]
      split <;> omega
  | some magnitude =>
      obtain ⟨rfl, -⟩ := (hread _).1 hm
      dsimp only
      rw [← hsigned]
      generalize signedInteger negative digits = n
      by_cases hn : -(pow2 (b - 1) : Int) ≤ n ∧ n ≤ (pow2 (b - 1) : Int) - 1
      · rw [if_neg (by omega), if_pos hn, Primitive.bmod_eq_of_bits? hb hn.1 (by omega)]
      · rw [if_pos (by omega), if_neg hn]

theorem checkInteger_invalid {range : Int × Int} (literal : String)
    (hd : digits = [] ∨ ¬∀ c ∈ digits, c.isDigit = true) :
    checkInteger type range literal negative digits = .error (.invalid type literal) := by
  refine if_pos ?_
  rw [Bool.or_eq_true, List.isEmpty_iff, Bool.not_eq_true', ← Bool.not_eq_true, List.all_eq_true]
  exact hd

theorem checkInteger_eq_ok_iff {range : Int × Int} {literal : String}
    (hr : type.integerRange? = some range) :
    checkInteger type range literal negative digits = .ok v ↔
      digits ≠ [] ∧ (∀ c ∈ digits, c.isDigit = true) ∧
        (range.1 ≤ signedInteger negative digits ∧ signedInteger negative digits ≤ range.2) ∧
        v = .int (signedInteger negative digits) := by
  by_cases hd : digits = [] ∨ ¬∀ c ∈ digits, c.isDigit = true
  · rw [checkInteger_invalid literal hd]
    exact ⟨fun h => (by cases h), fun ⟨hne, hall, _⟩ => absurd hall (hd.resolve_left hne)⟩
  · rw [not_or, not_not] at hd
    rw [checkInteger_eq hr literal hd.1 hd.2]
    split
    · next hn =>
        rw [Except.ok.injEq, eq_comm]
        exact ⟨fun h => ⟨hd.1, hd.2, hn, h⟩, fun h => h.2.2.2⟩
    · next hn => exact ⟨fun h => (by cases h), fun h => absurd h.2.2.1 hn⟩

/-- What the check of a whole number can answer. -/
theorem checkInteger_cases {range : Int × Int} {literal : String}
    (hr : type.integerRange? = some range) :
    checkInteger type range literal negative digits = .ok (.int (signedInteger negative digits)) ∨
      checkInteger type range literal negative digits = .error (.outOfRange type literal) ∨
      checkInteger type range literal negative digits = .error (.invalid type literal) := by
  by_cases hd : digits = [] ∨ ¬∀ c ∈ digits, c.isDigit = true
  · exact .inr (.inr (checkInteger_invalid literal hd))
  · rw [not_or, not_not] at hd
    rw [checkInteger_eq hr literal hd.1 hd.2]
    split
    · exact .inl rfl
    · exact .inr (.inl rfl)

theorem checkFloat_eq_ok_iff {ceiling : Magnitude} {literal : String} :
    checkFloat type ceiling literal negative digits = .ok v ↔
      ∃ d, Numeral digits d ∧ (d.toBinary64 negative).isWithin ceiling = true ∧
        v = .float (d.toBinary64 negative) := by
  unfold checkFloat
  simp only [← ofNumeral?_eq_some_iff]
  cases Decimal.ofNumeral? digits with
  | none => exact ⟨fun h => (by cases h), fun ⟨d, hd, _⟩ => (by cases hd)⟩
  | some d =>
      dsimp only
      by_cases hw : (d.toBinary64 negative).isWithin ceiling = true
      · rw [if_pos hw, Except.ok.injEq, eq_comm]
        exact ⟨fun h => ⟨d, rfl, hw, h⟩, fun ⟨d', hd, _, h⟩ => by cases hd; exact h⟩
      · rw [if_neg hw]
        exact ⟨fun h => (by cases h), fun ⟨d', hd, hw', _⟩ => by cases hd; exact absurd hw' hw⟩

/-- A signed number is checked as its type asks. -/
theorem checkLexemes_signed (hs : Signed ls negative digits) (literal : String) :
    checkLexemes type literal ls = match type.integerRange?, type.ceiling? with
      | some range, _ => checkInteger type range literal negative digits
      | none, some ceiling => checkFloat type ceiling literal negative digits
      | none, none => .error (.invalid type literal) := by
  cases hs <;> cases type <;> rfl

theorem literalOf_of_checkLexemes {literal : String} (h : checkLexemes type literal ls = .ok v) :
    LiteralOf type ls v := by
  unfold checkLexemes at h
  split at h
  · cases h
  · cases h
    exact .yes
  · cases h
    exact .no
  · split at h
    · next hc =>
        cases h
        exact .char hc
    · cases h
  · cases h
    exact .text _
  · split at h
    · next hs hr =>
        obtain ⟨-, hd, hn, rfl⟩ := (checkInteger_eq_ok_iff hr).1 h
        exact .integer (signedNumber?_eq_some_iff.1 hs) hd ⟨_, hr, hn⟩
    · next hs _ hc =>
        obtain ⟨d, hd, hw, rfl⟩ := checkFloat_eq_ok_iff.1 h
        exact .decimal hc (signedNumber?_eq_some_iff.1 hs) hd hw
    · cases h

theorem checkLexemes_of_literalOf (hl : Lexes cs ls) (h : LiteralOf type ls v) (literal : String) :
    checkLexemes type literal ls = .ok v := by
  cases h with
  | yes => rfl
  | no => rfl
  | char hc =>
      unfold checkLexemes
      dsimp only
      rw [hc]
  | text s => rfl
  | integer hs hd hn =>
      obtain ⟨range, hr, hn⟩ := hn
      rw [checkLexemes_signed hs, hr]
      exact (checkInteger_eq_ok_iff hr).2 ⟨hs.digits_ne_nil hl, hd, hn, rfl⟩
  | decimal hc hs hd hw =>
      -- The floating types have no range.
      have hr : type.integerRange? = none := by cases type <;> first | rfl | cases hc
      rw [checkLexemes_signed hs, hr, hc]
      exact checkFloat_eq_ok_iff.2 ⟨_, hd, hw, rfl⟩

/-- **A text passes the check against a type if its lexemes are a literal of that type.** -/
theorem checkPrimitive_eq_ok_iff (h : Lexes cs ls) :
    checkPrimitive type cs = .ok v ↔ LiteralOf type ls v := by
  unfold checkPrimitive
  dsimp only
  rw [lexemes?_eq_some_iff.2 h.trim]
  exact ⟨literalOf_of_checkLexemes, fun hl => checkLexemes_of_literalOf h hl _⟩

/-! ### Natural types -/

theorem literalOf_int_iff (hs : Signed ls negative digits) (hd : ∀ c ∈ digits, c.isDigit = true) :
    (∃ v, LiteralOf .int ls v) ↔ Primitive.int.InRange (signedInteger negative digits) := by
  constructor
  · rintro ⟨v, hv⟩
    cases hv with
    | integer hs' _ hn =>
        obtain ⟨rfl, rfl⟩ := hs.unique hs'
        exact hn
    | decimal hc _ _ _ => cases hc
  · exact fun hn => ⟨_, .integer hs hd hn⟩

/-- The natural type of a signed number, by its digits. -/
theorem naturalType?_signed (h : Lexes cs ls) (hs : Signed ls negative digits) :
    naturalType? cs =
      if digits.all Char.isDigit then
        some (if (checkPrimitive .int cs).toBool then .int else .long)
      else (Decimal.ofNumeral? digits).map fun _ => .double := by
  unfold naturalType?
  rw [lexemes?_eq_some_iff.2 h.trim]
  cases hs <;> rfl

theorem toBool_eq_true_iff {ε α : Type} {x : Except ε α} : x.toBool = true ↔ ∃ a, x = .ok a := by
  cases x <;> simp [Except.toBool]

/-- A signed number has the natural type of its digits. -/
theorem naturalType?_signed_iff (h : Lexes cs ls) (hs : Signed ls negative digits) :
    naturalType? cs = some p ↔ NaturalType ls p := by
  rw [naturalType?_signed h hs]
  have hint : (checkPrimitive .int cs).toBool = true ↔ ∃ v, LiteralOf .int ls v := by
    rw [toBool_eq_true_iff]
    exact exists_congr fun v => checkPrimitive_eq_ok_iff h
  constructor
  · intro hp
    split at hp
    · next hd =>
        have hd := List.all_eq_true.1 hd
        cases hp
        split
        · next hi => exact .int hs hd ((literalOf_int_iff hs hd).1 (hint.1 hi))
        · next hi => exact .long hs hd fun hn => hi (hint.2 ((literalOf_int_iff hs hd).2 hn))
    · next hd =>
        obtain ⟨d, hd', rfl⟩ := Option.map_eq_some_iff.1 hp
        exact .double hs (fun hall => hd (List.all_eq_true.2 hall)) (ofNumeral?_eq_some_iff.1 hd')
  · intro hp
    cases hp with
    | int hs' hd hn =>
        obtain ⟨rfl, rfl⟩ := hs.unique hs'
        rw [if_pos (List.all_eq_true.2 hd), if_pos (hint.2 ((literalOf_int_iff hs hd).2 hn))]
    | long hs' hd hn =>
        obtain ⟨rfl, rfl⟩ := hs.unique hs'
        rw [if_pos (List.all_eq_true.2 hd),
          if_neg fun hi => hn ((literalOf_int_iff hs hd).1 (hint.1 hi))]
    | double hs' hw hd =>
        obtain ⟨rfl, rfl⟩ := hs.unique hs'
        rw [if_neg fun hall => hw (List.all_eq_true.1 hall), ofNumeral?_eq_some_iff.2 hd]
        rfl
    | _ => cases hs

/-- **The natural type of a text is that of its lexemes.** -/
theorem naturalType?_eq_some_iff (h : Lexes cs ls) :
    naturalType? cs = some p ↔ NaturalType ls p := by
  by_cases hs : ∃ negative digits, Signed ls negative digits
  · obtain ⟨negative, digits, hs⟩ := hs
    exact naturalType?_signed_iff h hs
  · have hnone : signedNumber? ls = none := by
      cases hn : signedNumber? ls with
      | none => rfl
      | some r => exact absurd ⟨_, _, signedNumber?_eq_some_iff.1 hn⟩ hs
    unfold naturalType?
    rw [lexemes?_eq_some_iff.2 h.trim]
    simp only [bind, Option.bind]
    constructor
    · intro hp
      split at hp
      · cases hp
        exact .yes
      · cases hp
        exact .no
      · cases hp
        exact .char _
      · cases hp
        exact .text _
      · rw [hnone] at hp
        cases hp
    · intro hp
      cases hp with
      | int hs' _ _ => exact absurd ⟨_, _, hs'⟩ hs
      | long hs' _ _ => exact absurd ⟨_, _, hs'⟩ hs
      | double hs' _ _ => exact absurd ⟨_, _, hs'⟩ hs
      | _ => rfl

/-! ### Typing for storage -/

theorem checkPrimitive_null (h : Lexes cs ls) {q : Primitive}
    (hc : checkPrimitive type cs = .error (.null q)) : ls = [.keyword .null] := by
  unfold checkPrimitive at hc
  dsimp only at hc
  rw [lexemes?_eq_some_iff.2 h.trim] at hc
  dsimp only at hc
  unfold checkLexemes at hc
  split at hc
  · rfl
  · cases hc
  · cases hc
  · split at hc <;> cases hc
  · cases hc
  · split at hc
    · next hr =>
        rcases checkInteger_cases hr with h | h | h <;> rw [h] at hc <;> cases hc
    · unfold checkFloat at hc
      dsimp only at hc
      split at hc
      · cases hc
      · split at hc <;> cases hc
    · cases hc

/-- A literal of its natural type that another type accepts is a character, or else a literal of
that type already. -/
theorem assignable_of_natural {natural : Primitive} (h : Lexes cs ls) (hn : NaturalType ls natural)
    (hne : natural ≠ type) (ha : type.accepts natural = true) (hv : LiteralOf natural ls v) :
    Assignable type ls (v.widen type) ∨ ∃ w, LiteralOf type ls w := by
  -- A type other than the natural one accepts it only if it is numeric.
  have hself : natural = .boolean ∨ natural = .string ∨ natural = .double → False := by
    rintro (rfl | rfl | rfl) <;> cases type <;> revert hne ha <;> decide
  cases hn with
  | yes => exact (hself (.inl rfl)).elim
  | no => exact (hself (.inl rfl)).elim
  | text s => exact (hself (.inr (.inl rfl))).elim
  | double _ _ _ => exact (hself (.inr (.inr rfl))).elim
  | char s =>
      cases hv with
      | char hc => exact .inl (.char ha hc)
      | integer hs _ _ => cases hs
      | decimal _ hs _ _ => cases hs
  | int hs hd hn => exact .inr (exists_literalOf_of_accepts hs hd (hs.digits_ne_nil h) hn ha)
  | long hs hd _ =>
      cases hv with
      | integer hs' hd' hn' =>
          exact .inr (exists_literalOf_of_accepts hs' hd' (hs'.digits_ne_nil h) hn' ha)
      | decimal hc _ _ _ => cases hc

/-- **What passes the check for storage may be stored.** -/
theorem assignable_of_checkAssignable (h : Lexes cs ls) (hc : checkAssignable type cs = .ok v) :
    Assignable type ls v := by
  unfold checkAssignable at hc
  split at hc
  · next hv =>
      cases hc
      exact .literal ((checkPrimitive_eq_ok_iff h).1 hv)
  · cases hc
  · next e _ he =>
      have hno : ¬∃ v, LiteralOf type ls v := by
        rintro ⟨v, hv⟩
        rw [(checkPrimitive_eq_ok_iff h).2 hv] at he
        cases he
      split at hc
      · next natural hnat =>
          split at hc
          · next ha =>
              obtain ⟨w, hw, rfl⟩ := map_eq_ok.1 hc
              have hw := (checkPrimitive_eq_ok_iff h).1 hw
              exact (assignable_of_natural h ((naturalType?_eq_some_iff h).1 hnat) ha.1 ha.2
                hw).resolve_right hno
          · cases hc
      · cases hc

/-- **What may be stored passes the check for storage.** -/
theorem checkAssignable_of_assignable (h : Lexes cs ls) (ha : Assignable type ls v) :
    checkAssignable type cs = .ok v := by
  unfold checkAssignable
  cases ha with
  | literal hl => rw [(checkPrimitive_eq_ok_iff h).2 hl]
  | @char s c ha hc =>
      have hchar : LiteralOf .char [.charLiteral s] (.char c) := .char hc
      split
      · next w hw =>
          cases (checkPrimitive_eq_ok_iff h).1 hw with
          | char hc' =>
              cases hc.symm.trans hc'
              rfl
          | integer hs _ _ => cases hs
          | decimal _ hs _ _ => cases hs
      · next he => cases checkPrimitive_null h he
      · next e _ he =>
          have hne : Primitive.char ≠ type := by
            rintro rfl
            rw [(checkPrimitive_eq_ok_iff h).2 hchar] at he
            cases he
          rw [(naturalType?_eq_some_iff h).2 (.char s)]
          dsimp only
          rw [if_pos ⟨hne, ha⟩, (checkPrimitive_eq_ok_iff h).2 hchar]
          rfl

/-- **A text passes the check for storage exactly if its lexemes may be stored.** -/
theorem checkAssignable_eq_ok_iff (h : Lexes cs ls) :
    checkAssignable type cs = .ok v ↔ Assignable type ls v :=
  ⟨assignable_of_checkAssignable h, checkAssignable_of_assignable h⟩

end Typing

end StackHeap
