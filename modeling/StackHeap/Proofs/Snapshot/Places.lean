import StackHeap.Proofs.Address.Distinct
import StackHeap.Proofs.Command.Quoting
import StackHeap.Proofs.Number.Layout
import StackHeap.Proofs.Text.Clear
import StackHeap.Proofs.Typing.Holds
import StackHeap.Snapshot

/-! # What the text of a place tells

The text of a value does not tell its kind: a variable named like a number cannot be, but an object
and an array are shown alike, by their addresses, and an integer like a number without a point.  The
type is told, however, and it stands in front.  So every text is taken apart from the left.  The type
is a run of characters, known where it ends, and once it is known the values of that type are told
apart (`unambiguous_display`): numbers, addresses and `null` are runs of characters again, and texts
are quoted and escaped. -/

namespace StackHeap

open Command Number Store Text

variable {c : Char} {name : String} {a : Address} {t : DeclaredType} {v w : Value}

/-! ### Characters -/

theorem isNumberChar_of_isDigit (h : c.isDigit = true) : isNumberChar c = true := by
  simp [isNumberChar, isWordChar_of_isDigit h]

theorem isNumberChar_of_signedDigits {cs : List Char} {e : Int} (h : SignedDigits cs e) :
    ∀ c ∈ cs, isNumberChar c = true := by
  cases h with
  | bare hd _ => exact fun c hc => isNumberChar_of_isDigit (hd c hc)
  | plus hd _ => exact List.forall_mem_cons.2 ⟨rfl, fun c hc => isNumberChar_of_isDigit (hd c hc)⟩
  | minus hd _ => exact List.forall_mem_cons.2 ⟨rfl, fun c hc => isNumberChar_of_isDigit (hd c hc)⟩

/-- What numerals are made of. -/
theorem isNumberChar_of_numeral {cs : List Char} {d : Decimal} (h : Numeral cs d) :
    ∀ c ∈ cs, isNumberChar c = true := by
  cases h with
  | @mk whole part fraction exponent e hw hf he hne =>
      have hpart : ∀ c ∈ part, isNumberChar c = true := by
        cases hf with
        | none => simp
        | point hd => exact List.forall_mem_cons.2 ⟨rfl, fun c hc => isNumberChar_of_isDigit (hd c hc)⟩
      have hexponent : ∀ c ∈ exponent, isNumberChar c = true := by
        cases he with
        | none => simp
        | letter hletter hs =>
            refine List.forall_mem_cons.2 ⟨?_, isNumberChar_of_signedDigits hs⟩
            rcases hletter with rfl | rfl <;> rfl
      intro c hc
      rcases List.mem_append.1 hc with hc | hc
      · exact isNumberChar_of_isDigit (hw c hc)
      · exact (List.mem_append.1 hc).elim (hpart c) (hexponent c)

theorem isWordChar_of_isIdentifier (hn : IsIdentifier name) : ∀ c ∈ name.toList, isWordChar c = true := by
  obtain ⟨c, taken, he, hc, hw, -⟩ := exists_word_of_lexes (lexemes?_eq_some_iff.1 hn)
  rw [he]
  exact List.forall_mem_cons.2 ⟨isWordChar_of_isAlpha hc, List.all_eq_true.1 hw⟩

/-! ### Addresses -/

/-- What all tokens have in common. -/
structure Address.Plain (a : Address) : Prop where
  head : a.token.toList.head? = some '0'
  chars : ∀ c ∈ a.token.toList, isNumberChar c = true

theorem Address.plain_ofSeed (x : Binary64) : (Address.ofSeed x).Plain := by
  have hdigit : ∀ k, ∀ c ∈ wholeNumeral k, isNumberChar c = true := by
    intro k c hc
    obtain ⟨j, hj⟩ := exists_wholeNumeral_eq k
    obtain ⟨d, hd, rfl⟩ := exists_digit36_of_mem (hj ▸ hc)
    have key : ∀ d : Fin 36, isNumberChar (digit36 d) = true := by decide
    exact key ⟨d, hd⟩
  have hbody : ∀ c ∈ Address.body x, isNumberChar c = true := by
    cases x with
    | nan => exact List.all_eq_true.1 rfl
    | infinite negative => cases negative <;> exact List.all_eq_true.1 rfl
    | finite negative m =>
        intro c hc
        rw [Address.body_finite, List.mem_append, magnitudeText, List.mem_append] at hc
        rcases hc with hc | hc | hc
        · split at hc
          · rw [List.mem_singleton.1 hc]
            rfl
          · cases hc
        · exact hdigit _ c hc
        · split at hc
          · cases hc
          · rcases List.mem_cons.1 hc with rfl | hc
            · rfl
            · obtain ⟨d, hd, -⟩ :=
                Decimal.exists_numeral_positional (Magnitude.readsAs_shortest m.fraction)
              exact isNumberChar_of_numeral hd c (List.mem_of_mem_drop hc)
  have htoken : (Address.ofSeed x).token.toList = '0' :: 'x' :: Address.body x := String.toList_ofList
  refine ⟨by rw [htoken]; rfl, ?_⟩
  rw [htoken]
  exact List.forall_mem_cons.2 ⟨rfl, List.forall_mem_cons.2 ⟨rfl, hbody⟩⟩

theorem Address.Plain.head?_append (ha : a.Plain) (r : List Char) :
    (a.token.toList ++ r).head? = some '0' := by
  rw [List.head?_append, ha.head]
  rfl

theorem Address.token_injective : Function.Injective Address.token := by
  rintro ⟨s⟩ ⟨t⟩ rfl
  rfl

theorem unambiguous_token :
    Unambiguous Address.Plain (fun a => a.token.toList) (Stops isNumberChar) :=
  .run (fun _ _ _ _ h => Address.token_injective (String.toList_inj.1 h)) fun _ ha => ha.chars

/-! ### Types -/

/-- A type that a declaration can name. -/
def DeclaredType.Legible : DeclaredType → Prop
  | primitive _ => True
  | object category => IsIdentifier category ∧ Primitive.ofName? category = none
  | array element => element.Legible

/-- The characters that types are written with. -/
def isTypeChar (c : Char) : Bool := isWordChar c || c = '[' || c = ']'

theorem isWordChar_of_mem_name (p : Primitive) : ∀ c ∈ p.name.toList, isWordChar c = true := by
  cases p <;> exact List.all_eq_true.1 rfl

namespace DeclaredType

theorem legible_ofName (hn : IsIdentifier name) : (ofName name).Legible := by
  unfold ofName
  cases h : Primitive.ofName? name with
  | none => exact ⟨hn, h⟩
  | some p => trivial

theorem toList_text_array (t : DeclaredType) :
    (text (.array t)).toList = t.text.toList ++ ['[', ']'] := String.toList_append

theorem isTypeChar_of_mem_text (h : t.Legible) : ∀ c ∈ t.text.toList, isTypeChar c = true := by
  have hword : ∀ c, isWordChar c = true → isTypeChar c = true := fun c hc => by simp [isTypeChar, hc]
  induction t with
  | primitive p => exact fun c hc => hword c (isWordChar_of_mem_name p c hc)
  | object category => exact fun c hc => hword c (isWordChar_of_isIdentifier h.1 c hc)
  | array element ih =>
      intro c hc
      rw [toList_text_array] at hc
      rcases List.mem_append.1 hc with hc | hc
      · exact ih h c hc
      · exact List.all_eq_true.1 (show ['[', ']'].all isTypeChar = true by decide) c hc

/-- The type of an array can be told from a name. -/
theorem text_array_ne {element : DeclaredType} {s : String} (hs : ∀ c ∈ s.toList, isWordChar c = true) :
    text (.array element) ≠ s := by
  rintro rfl
  exact absurd (hs ']' (by simp [toList_text_array])) (by decide)

/-- **The text of a type determines it.** -/
theorem text_injOn {s : DeclaredType} (ht : t.Legible) (hs : s.Legible) (h : t.text = s.text) :
    t = s := by
  induction t generalizing s with
  | primitive p =>
      cases s with
      | primitive q =>
          have hname := congrArg Primitive.ofName? h
          simp only [text, Primitive.ofName?_name] at hname
          rw [Option.some.inj hname]
      | object category =>
          obtain rfl : p.name = category := h
          cases hs.2.symm.trans (Primitive.ofName?_name p)
      | array element => exact absurd h.symm (text_array_ne (isWordChar_of_mem_name p))
  | object category =>
      cases s with
      | primitive q =>
          obtain rfl : category = q.name := h
          cases ht.2.symm.trans (Primitive.ofName?_name q)
      | object category' => rw [show category = category' from h]
      | array element => exact absurd h.symm (text_array_ne (isWordChar_of_isIdentifier ht.1))
  | array element ih =>
      cases s with
      | primitive q => exact absurd h (text_array_ne (isWordChar_of_mem_name q))
      | object category => exact absurd h (text_array_ne (isWordChar_of_isIdentifier hs.1))
      | array element' =>
          have hl := congrArg String.toList h
          rw [toList_text_array, toList_text_array] at hl
          have he : element = element' := ih ht hs (String.toList_inj.1 (List.append_cancel_right hl))
          rw [he]

end DeclaredType

theorem unambiguous_type :
    Unambiguous DeclaredType.Legible (fun t => t.text.toList) (Stops isTypeChar) :=
  .run (fun _ _ ht hs h => DeclaredType.text_injOn ht hs (String.toList_inj.1 h))
    fun _ ht => DeclaredType.isTypeChar_of_mem_text ht

theorem unambiguous_name : Unambiguous IsIdentifier String.toList (Stops isWordChar) :=
  .run (fun _ _ _ _ h => String.toList_inj.1 h) fun _ hn => isWordChar_of_isIdentifier hn

/-! ### Values -/

/-- What a place of a type shows. -/
inductive Shows : DeclaredType → Value → Prop where
  | primitive {p : Primitive} {v : Value} (h : p.Holds v) : Shows (.primitive p) v
  | null {t : DeclaredType} (h : t.isReference = true) : Shows t .null
  | object {category : String} {a : Address} (h : a.Plain) : Shows (.object category) (.objectRef a)
  | array {element : DeclaredType} {a : Address} (h : a.Plain) : Shows (.array element) (.arrayRef a)

theorem display_char (c : Char) :
    (Value.char c).display.toList = ['\''] ++ ((escape c.toString).toList ++ ['\'']) := by
  simp [Value.display, String.toList_append]

theorem display_text (s : String) :
    (Value.text s).display.toList = ['"'] ++ ((escape s).toList ++ ['"']) := by
  simp [Value.display, String.toList_append]

/-- Characters and texts are quoted. -/
def IsQuoted (t : DeclaredType) : Prop := t = .primitive .char ∨ t = .primitive .string

/-- What is not quoted is a run of characters. -/
theorem isNumberChar_of_shows (hv : Shows t v) (hq : ¬IsQuoted t) :
    ∀ c ∈ v.display.toList, isNumberChar c = true := by
  cases hv with
  | primitive hp =>
      cases hp with
      | boolean b => cases b <;> exact List.all_eq_true.1 rfl
      | char c => exact absurd (.inl rfl) hq
      | string s => exact absurd (.inr rfl) hq
      | integral _ _ _ => exact isNumberChar_of_signedDigits (signedDigits_integerText _)
      | @floating _ _ m negative _ _ =>
          obtain ⟨cs, d, htext, hd, -⟩ := Binary64.exists_text_finite negative m
          rw [Value.display, htext]
          intro c hc
          rcases List.mem_append.1 hc with hc | hc
          · split at hc
            · rw [List.mem_singleton.1 hc]
              rfl
            · cases hc
          · exact isNumberChar_of_numeral hd c hc
  | null _ => exact List.all_eq_true.1 rfl
  | object ha => exact ha.chars
  | array ha => exact ha.chars

/-- No token is `null`. -/
theorem Address.Plain.token_ne_null (ha : a.Plain) : a.token ≠ "null" := by
  intro h
  have hhead := ha.head
  rw [h] at hhead
  cases hhead

/-- No integral type is a floating one. -/
theorem ceiling?_eq_none {p : Primitive} {b : Nat} (hb : p.bits? = some b) : p.ceiling? = none := by
  cases p <;> first | rfl | cases hb

/-- What is shown at a place of a primitive type is a value of it. -/
theorem shows_primitive_iff {p : Primitive} : Shows (.primitive p) v ↔ p.Holds v := by
  refine ⟨fun hv => ?_, .primitive⟩
  cases hv with
  | primitive hp => exact hp
  | null ht => cases ht

/-- The text of a truth value or a number tells the value of a type. -/
theorem display_injOn_of_holds {p : Primitive} (hv : p.Holds v) (hw : p.Holds w)
    (hq : ¬IsQuoted (.primitive p)) (h : v.display = w.display) : v = w := by
  cases hv with
  | char c => exact absurd (.inl rfl) hq
  | string s => exact absurd (.inr rfl) hq
  | boolean b =>
      cases hw with
      | boolean b' => cases b <;> cases b' <;> first | rfl | exact absurd h (by decide)
      | integral hb _ _ => cases hb
      | floating _ hc _ => cases hc
  | integral hb _ _ =>
      cases hw with
      | boolean b => cases hb
      | char c => cases hb
      | string s => cases hb
      | integral _ _ _ => rw [integerText_injective h]
      | floating _ hc _ => cases (ceiling?_eq_none hb).symm.trans hc
  | floating _ hc _ =>
      cases hw with
      | boolean b => cases hc
      | char c => cases hc
      | string s => cases hc
      | integral hb _ _ => cases (ceiling?_eq_none hb).symm.trans hc
      | floating _ _ _ =>
          obtain ⟨rfl, rfl⟩ := Binary64.text_finite_injective h
          rfl

/-- What is shown at places of one type without quotes is told apart by its text. -/
theorem display_injOn (hv : Shows t v) (hw : Shows t w) (hq : ¬IsQuoted t)
    (h : v.display = w.display) : v = w := by
  cases hv with
  | primitive hp => exact display_injOn_of_holds hp (shows_primitive_iff.1 hw) hq h
  | null ht =>
      cases hw with
      | primitive hp => cases ht
      | null _ => rfl
      | object ha => exact absurd h.symm ha.token_ne_null
      | array ha => exact absurd h.symm ha.token_ne_null
  | object ha =>
      cases hw with
      | null _ => exact absurd h ha.token_ne_null
      | object _ => rw [Address.token_injective h]
  | array ha =>
      cases hw with
      | null _ => exact absurd h ha.token_ne_null
      | array _ => rw [Address.token_injective h]

theorem exists_of_shows_char (hv : Shows (.primitive .char) v) : ∃ c, v = .char c := by
  cases shows_primitive_iff.1 hv with
  | char c => exact ⟨c, rfl⟩
  | integral hb _ _ => cases hb
  | floating _ hc _ => cases hc

theorem exists_of_shows_string (hv : Shows (.primitive .string) v) : ∃ s, v = .text s := by
  cases shows_primitive_iff.1 hv with
  | string s => exact ⟨s, rfl⟩
  | integral hb _ _ => cases hb
  | floating _ hc _ => cases hc

theorem display_ne_nil (hv : Shows t v) : v.display.toList ≠ [] := by
  have htoken : ∀ {a : Address}, a.Plain → a.token.toList ≠ [] := fun ha h => by
    have hhead := ha.head
    rw [h] at hhead
    cases hhead
  cases hv with
  | null _ => decide
  | object ha => exact htoken ha
  | array ha => exact htoken ha
  | primitive hp =>
      cases hp with
      | boolean b => cases b <;> decide
      | char c => simp [display_char]
      | string s => simp [display_text]
      | @integral _ _ n _ _ _ =>
          rw [Value.display, toList_integerText]
          exact List.append_ne_nil_of_right_ne_nil _ (decimalDigits_ne_nil _)
      | @floating _ _ m negative _ _ =>
          obtain ⟨cs, d, htext, hd, -⟩ := Binary64.exists_text_finite negative m
          rw [Value.display, htext]
          refine List.append_ne_nil_of_right_ne_nil _ ?_
          rintro rfl
          cases ofNumeral?_of_numeral hd

/-- No value is shown as nothing, nor does its text start like the end of a list. -/
theorem head?_display_ne (hv : Shows t v) (r : List Char) :
    (v.display.toList ++ r).head? ≠ some ']' := by
  by_cases hq : IsQuoted t
  · rcases hq with rfl | rfl
    · obtain ⟨c, rfl⟩ := exists_of_shows_char hv
      rw [display_char]
      exact fun h => by cases h
    · obtain ⟨s, rfl⟩ := exists_of_shows_string hv
      rw [display_text]
      exact fun h => by cases h
  · intro h
    rw [List.head?_append_of_ne_nil _ (display_ne_nil hv)] at h
    cases isNumberChar_of_shows hv hq _ (List.mem_of_head? h)

/-- **At a place of a known type the text of a value tells the value.** -/
theorem unambiguous_display (t : DeclaredType) :
    Unambiguous (Shows t) (fun v => v.display.toList) (Stops isNumberChar) := by
  by_cases hq : IsQuoted t
  · intro v w r s hv hw _ _ h
    dsimp only at h
    rcases hq with rfl | rfl
    · obtain ⟨c, rfl⟩ := exists_of_shows_char hv
      obtain ⟨d, rfl⟩ := exists_of_shows_char hw
      rw [display_char, display_char] at h
      obtain ⟨he, hr⟩ := unambiguous_quoted (.inl rfl) trivial trivial trivial trivial h
      obtain rfl : c = d := by simpa using congrArg String.toList he
      exact ⟨rfl, hr⟩
    · obtain ⟨x, rfl⟩ := exists_of_shows_string hv
      obtain ⟨y, rfl⟩ := exists_of_shows_string hw
      rw [display_text, display_text] at h
      obtain ⟨rfl, hr⟩ := unambiguous_quoted (.inr rfl) trivial trivial trivial trivial h
      exact ⟨rfl, hr⟩
  · exact .run (fun v w hv hw h => display_injOn hv hw hq (String.toList_inj.1 h))
      fun v hv => isNumberChar_of_shows hv hq

/-! ### Control characters -/

theorem Address.Plain.clear (ha : a.Plain) : Clear [] a.token := clear_of_forall ha.chars (by decide)

theorem clear_of_isIdentifier (hn : IsIdentifier name) : Clear [] name :=
  clear_of_forall (isWordChar_of_isIdentifier hn) (by decide)

theorem clear_name (p : Primitive) : Clear [] p.name :=
  clear_of_forall (isWordChar_of_mem_name p) (by decide)

theorem DeclaredType.Legible.clear (ht : t.Legible) : Clear [] t.text :=
  clear_of_forall (isTypeChar_of_mem_text ht) (by decide)

theorem clear_display (hv : Shows t v) : Clear [] v.display := by
  by_cases hq : IsQuoted t
  · rcases hq with rfl | rfl
    · obtain ⟨c, rfl⟩ := exists_of_shows_char hv
      exact clear_between (by decide) (clear_escape _) (by decide)
    · obtain ⟨s, rfl⟩ := exists_of_shows_string hv
      exact clear_between (by decide) (clear_escape _) (by decide)
  · exact clear_of_forall (isNumberChar_of_shows hv hq) (by decide)

end StackHeap
