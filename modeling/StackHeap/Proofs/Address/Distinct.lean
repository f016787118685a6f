import StackHeap.Proofs.Address.Rounded
import StackHeap.Proofs.Number.Numerals
import StackHeap.Proofs.Number.Shortest

/-! # Which seeds share an address

The token of a finite seed can be taken apart again: a minus sign, which no numeral starts with;
the numeral of the whole part, which has no point; and the digits of the fraction.  Each part
determines what it was written for (`wholeNumeral_injOn`, `fractionNumeral_injOn`), so finite seeds
share an address only if they are the same number (`body_finite_eq_iff`).

The words of the other seeds are made of digits in base 36, and so each of them is the token of a
whole number as well (`Collides`).  There are no further collisions (`ofSeed_eq_iff`). -/

namespace StackHeap

open Number Text

namespace Number.Binary64

/-- Equal as numbers, the two zeros included, or both not a number. -/
def SameNumber : Binary64 → Binary64 → Prop
  | .nan, .nan => True
  | .infinite s, .infinite t => s = t
  | .finite s m, .finite t n => m = n ∧ (s = t ∨ m.units = 0)
  | _, _ => False

end Number.Binary64

variable {m n : Magnitude}

/-! ### Numerals -/

theorem exists_digit36_of_mem {c : Char} {k : Nat} (h : c ∈ numeral36 k) :
    ∃ d < 36, c = digit36 d := by
  induction k using Nat.strongRecOn with
  | ind k ih =>
      rcases Nat.lt_or_ge k 36 with hk | hk
      · rw [numeral36_of_lt hk] at h
        exact ⟨k, hk, List.mem_singleton.1 h⟩
      · rw [numeral36_of_le hk] at h
        rcases List.mem_append.1 h with hq | hr
        · exact ih _ (by omega) hq
        · exact ⟨k % 36, Nat.mod_lt _ (by decide), List.mem_singleton.1 hr⟩

theorem exists_wholeNumeral_eq (k : Nat) : ∃ j, wholeNumeral k = numeral36 j := by
  unfold wholeNumeral
  split
  · exact ⟨_, rfl⟩
  · exact ⟨_, roundedNumeral36_eq k⟩

/-- A numeral has neither a point nor a sign in it. -/
theorem ne_of_mem_wholeNumeral {c : Char} {k : Nat} (h : c ∈ wholeNumeral k) : c ≠ '.' ∧ c ≠ '-' := by
  obtain ⟨j, hj⟩ := exists_wholeNumeral_eq k
  rw [hj] at h
  obtain ⟨d, hd, rfl⟩ := exists_digit36_of_mem h
  have key : ∀ d : Fin 36, digit36 d ≠ '.' ∧ digit36 d ≠ '-' := by decide
  exact key ⟨d, hd⟩

theorem wholeNumeral_ne_nil (k : Nat) : wholeNumeral k ≠ [] := by
  obtain ⟨j, hj⟩ := exists_wholeNumeral_eq k
  rw [hj]
  exact List.ne_nil_of_length_pos (length_numeral36_pos j)

/-- The digits of a fraction determine it. -/
theorem fractionNumeral_injOn (hm : m.units ≠ 0) (hn : n.units ≠ 0) (hm1 : m.units < unitsPerOne)
    (hn1 : n.units < unitsPerOne) (h : fractionNumeral m = fractionNumeral n) : m = n := by
  have hdm := (Magnitude.readsAs_shortest m).belowOne hm hm1
  have hdn := (Magnitude.readsAs_shortest n).belowOne hn hn1
  rw [fractionNumeral, fractionNumeral, hdm.positional_eq, hdn.positional_eq] at h
  exact Magnitude.shortest_injective (hdm.eq_of_places hdn h)

/-! ### Magnitudes -/

/-- The token of a magnitude. -/
def magnitudeText (m : Magnitude) : List Char :=
  wholeNumeral m.whole ++ (if m.fraction.units = 0 then [] else '.' :: fractionNumeral m.fraction)

theorem head?_magnitudeText_ne (m : Magnitude) : (magnitudeText m).head? ≠ some '-' := by
  intro h
  rw [magnitudeText, List.head?_append_of_ne_nil _ (wholeNumeral_ne_nil _)] at h
  exact (ne_of_mem_wholeNumeral (List.mem_of_head? h)).2 rfl

theorem fraction_lt (m : Magnitude) : m.fraction.units < unitsPerOne :=
  Nat.mod_lt _ unitsPerOne_pos

/-- The token of a magnitude determines it. -/
theorem magnitudeText_injective (h : magnitudeText m = magnitudeText n) : m = n := by
  have hstops : ∀ m : Magnitude, Stops (· != '.') (if m.fraction.units = 0 then []
      else '.' :: fractionNumeral m.fraction) := by
    intro m
    split
    · exact stops_nil
    · exact stops_cons rfl _
  have hnumerals : Unambiguous IsShort wholeNumeral (Stops (· != '.')) :=
    .run (fun _ _ => wholeNumeral_injOn) fun _ _ _ hc => bne_iff_ne.2 (ne_of_mem_wholeNumeral hc).1
  obtain ⟨hw, hfraction⟩ :=
    hnumerals (m.short.div_pow2 1074) (n.short.div_pow2 1074) (hstops m) (hstops n) h
  have hf : m.fraction = n.fraction := by
    split at hfraction
    · next hm =>
        split at hfraction
        · next hn => exact Magnitude.ext (hm.trans hn.symm)
        · cases hfraction
    · next hm =>
        split at hfraction
        · cases hfraction
        · next hn =>
            exact fractionNumeral_injOn hm hn (fraction_lt m) (fraction_lt n) (List.cons.inj hfraction).2
  have hu : m.units % unitsPerOne = n.units % unitsPerOne := congrArg Magnitude.units hf
  refine Magnitude.ext ?_
  rw [← Nat.div_add_mod m.units unitsPerOne, ← Nat.div_add_mod n.units unitsPerOne, hu]
  exact congrArg (unitsPerOne * · + n.units % unitsPerOne) hw

namespace Address

/-! ### Finite seeds -/

theorem body_finite (s : Bool) (m : Magnitude) : body (.finite s m) =
    (if s && m.units != 0 then ['-'] else []) ++ magnitudeText m := by
  rw [body, magnitudeText, List.append_assoc]

/-- **Finite seeds with one token are the same number.** -/
theorem body_finite_eq_iff {s t : Bool} : body (.finite s m) = body (.finite t n) ↔
    Binary64.SameNumber (.finite s m) (.finite t n) := by
  rw [body_finite, body_finite]
  constructor
  · intro h
    obtain ⟨hsign, htext⟩ := sign_append_inj (head?_magnitudeText_ne m) (head?_magnitudeText_ne n) h
    obtain rfl := magnitudeText_injective htext
    by_cases hz : m.units = 0
    · exact ⟨rfl, .inr hz⟩
    · rw [bne_iff_ne.2 hz, Bool.and_true, Bool.and_true] at hsign
      exact ⟨rfl, .inl hsign⟩
  · rintro ⟨rfl, rfl | hz⟩
    · rfl
    · simp only [hz, bne_self_eq_false, Bool.and_false]

/-- The same number has one token. -/
theorem body_eq_of_sameNumber {a b : Binary64} (h : a.SameNumber b) : body a = body b := by
  cases a with
  | nan =>
      cases b with
      | nan => rfl
      | _ => cases h
  | infinite s =>
      cases b with
      | infinite t =>
          obtain rfl : s = t := h
          rfl
      | _ => cases h
  | finite s m =>
      cases b with
      | finite t n => exact body_finite_eq_iff.2 h
      | _ => cases h

/-! ### Words -/

/-- The seeds that are not finite, each with a number of the same token. -/
inductive Collides : Binary64 → Binary64 → Prop where
  | nan : Collides .nan (.ofNat 30191)
  | infinite : Collides (.infinite false) (.ofNat 24171)
  | negative : Collides (.infinite true) (.negate (.ofNat 24171))

theorem numeral36_nan : numeral36 30191 = "nan".toList := by
  simp [numeral36, digit36]

theorem numeral36_inf : numeral36 24171 = "inf".toList := by
  simp [numeral36, digit36]

/-- The tokens of a whole number and of its negative. -/
theorem exists_ofNat_body {k : Nat} (hpos : 0 < k) (hk : k ≤ pow2 53) :
    ∃ m : Magnitude, m.units ≠ 0 ∧ Binary64.ofNat k = .finite false m ∧
      ∀ s, body (.finite s m) = (if s then ['-'] else []) ++ numeral36 k := by
  obtain ⟨m, hm, he⟩ := exists_ofNat_eq hk
  have hz : m.units ≠ 0 := by
    rw [hm]
    exact Nat.mul_ne_zero (Nat.ne_of_gt hpos) (Nat.ne_of_gt unitsPerOne_pos)
  refine ⟨m, hz, he, fun s => ?_⟩
  rw [body_finite_of_whole hm (Nat.lt_of_le_of_lt hk (pow2_lt_pow2 (by decide))), bne_iff_ne.2 hz,
    Bool.and_true]

/-- What a word collides with is a number other than zero, and has the same token. -/
theorem Collides.exists_eq {a b : Binary64} (h : Collides a b) :
    ∃ s m, b = .finite s m ∧ m.units ≠ 0 ∧ body a = body (.finite s m) := by
  cases h with
  | nan =>
      obtain ⟨m, hz, he, hbody⟩ := exists_ofNat_body (k := 30191) (by decide) (by decide)
      exact ⟨false, m, he, hz, by rw [hbody, numeral36_nan]; rfl⟩
  | infinite =>
      obtain ⟨m, hz, he, hbody⟩ := exists_ofNat_body (k := 24171) (by decide) (by decide)
      exact ⟨false, m, he, hz, by rw [hbody, numeral36_inf]; rfl⟩
  | negative =>
      obtain ⟨m, hz, he, hbody⟩ := exists_ofNat_body (k := 24171) (by decide) (by decide)
      exact ⟨true, m, by rw [he]; rfl, hz, by rw [hbody, numeral36_inf]; rfl⟩

theorem Collides.body_eq {a b : Binary64} (h : Collides a b) : body a = body b := by
  obtain ⟨s, m, rfl, -, hbody⟩ := h.exists_eq
  exact hbody

/-- A finite seed with the token of a word is the number that the word collides with. -/
theorem Collides.of_body_eq {a b : Binary64} {t : Bool} (h : Collides a b)
    (hbody : body a = body (.finite t n)) : Collides a (.finite t n) := by
  obtain ⟨s, m, rfl, hz, hb⟩ := h.exists_eq
  obtain ⟨rfl, hsign⟩ := body_finite_eq_iff.1 (hb.symm.trans hbody)
  rcases hsign with rfl | h0
  · exact h
  · exact absurd h0 hz

theorem exists_collides (s : Bool) : ∃ b, Collides (.infinite s) b := by
  cases s
  · exact ⟨_, .infinite⟩
  · exact ⟨_, .negative⟩

theorem body_infinite_injective {s t : Bool}
    (h : body (.infinite s) = body (.infinite t)) : s = t := by
  cases s <;> cases t <;> first | rfl | exact absurd h (by decide)

theorem body_nan_ne_infinite (s : Bool) : body .nan ≠ body (.infinite s) := by
  cases s <;> decide

theorem ofSeed_eq_iff_body {a b : Binary64} : ofSeed a = ofSeed b ↔ body a = body b := by
  constructor
  · intro h
    have hl := String.ofList_injective (Address.mk.inj h)
    exact (List.cons.inj (List.cons.inj hl).2).2
  · intro h
    rw [ofSeed, ofSeed, h]

/-- **Seeds share an address exactly if they are the same number or one is not finite and collides
with the other.** -/
theorem ofSeed_eq_iff (a b : Binary64) :
    ofSeed a = ofSeed b ↔ a.SameNumber b ∨ Collides a b ∨ Collides b a := by
  rw [ofSeed_eq_iff_body]
  constructor
  · intro h
    cases a with
    | nan =>
        cases b with
        | nan => exact .inl trivial
        | infinite t => exact absurd h (body_nan_ne_infinite t)
        | finite t n => exact .inr (.inl (Collides.nan.of_body_eq h))
    | infinite s =>
        obtain ⟨c, hc⟩ := exists_collides s
        cases b with
        | nan => exact absurd h.symm (body_nan_ne_infinite s)
        | infinite t => exact .inl (body_infinite_injective h)
        | finite t n => exact .inr (.inl (hc.of_body_eq h))
    | finite s m =>
        cases b with
        | nan => exact .inr (.inr (Collides.nan.of_body_eq h.symm))
        | infinite t =>
            obtain ⟨c, hc⟩ := exists_collides t
            exact .inr (.inr (hc.of_body_eq h.symm))
        | finite t n => exact .inl (body_finite_eq_iff.1 h)
  · rintro (hsame | hab | hba)
    · exact body_eq_of_sameNumber hsame
    · exact hab.body_eq
    · exact hba.body_eq.symm

/-- Not-a-number and a whole number share an address. -/
theorem ofSeed_nan_eq : ofSeed .nan = ofSeed (.ofNat 30191) ∧
    ¬ Binary64.SameNumber .nan (.ofNat 30191) := by
  obtain ⟨s, m, he, -, hbody⟩ := Collides.nan.exists_eq
  rw [he]
  exact ⟨ofSeed_eq_iff_body.2 hbody, not_false⟩

end Address

end StackHeap
