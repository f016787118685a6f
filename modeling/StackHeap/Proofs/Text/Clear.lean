import StackHeap.Number.Digits
import StackHeap.Proofs.Text.Escape
import StackHeap.Text.Blank
import StackHeap.Text.Bytes

/-! # Texts without control characters

A message is put together from fixed words, from names and numbers, from escaped texts, and from
pieces of the line it answers.  Only the last can bring along a control character, such as a line
feed.  So a text is called *clear* over a source if every control character in it stands in the
source as well (`Clear`).  Over the empty source there are none in it.

A check either passes or tells why it does not.  `Tells` says of it what its answer satisfies and that
the text of its error is clear; it is proved along the structure of the check. -/

namespace StackHeap.Text

/-- The control characters, those below the space. -/
def IsControl (c : Char) : Prop := c.toNat < 0x20

instance (c : Char) : Decidable (IsControl c) := inferInstanceAs (Decidable (c.toNat < 0x20))

/-- All control characters in a text are from a source. -/
def Clear (source : List Char) (s : String) : Prop := ∀ c ∈ s.toList, IsControl c → c ∈ source

instance (source : List Char) (s : String) : Decidable (Clear source s) :=
  List.decidableBAll (fun c => IsControl c → c ∈ source) s.toList

variable {source more : List Char} {s t : String} {cs : List Char}

namespace Clear

theorem mono (h : Clear source s) (hs : source ⊆ more) : Clear more s :=
  fun c hc hcontrol => hs (h c hc hcontrol)

/-- A text without control characters is clear over any source. -/
theorem lift (h : Clear [] s) : Clear source s := h.mono (List.nil_subset source)

theorem oneLine (h : Clear source s) (hs : '\n' ∉ source) : OneLine s :=
  fun hc => hs (h '\n' hc (by decide))

end Clear

theorem oneLine_of_clear (h : Clear [] s) : OneLine s := h.oneLine List.not_mem_nil

/-! ### Texts put together -/

@[simp] theorem clear_append : Clear source (s ++ t) ↔ Clear source s ∧ Clear source t := by
  simp only [Clear, String.toList_append, List.forall_mem_append]

/-- A text between fixed words. -/
theorem clear_between {front back : String} (hf : Clear [] front) (h : Clear source s)
    (hb : Clear [] back) : Clear source (front ++ s ++ back) :=
  clear_append.2 ⟨clear_append.2 ⟨hf.lift, h⟩, hb.lift⟩

/-- A piece of the source. -/
theorem clear_ofList (h : cs ⊆ source) : Clear source (String.ofList cs) := by
  intro c hc _
  rw [String.toList_ofList] at hc
  exact h hc

theorem clear_toString {c : Char} (h : c ∈ source) : Clear source c.toString := by
  have hc : [c] ⊆ source := by simpa using h
  exact clear_ofList hc

theorem clear_intercalate {separator : String} {parts : List String} (hs : Clear source separator)
    (h : ∀ s ∈ parts, Clear source s) : Clear source (separator.intercalate parts) := by
  induction parts with
  | nil => exact fun c hc => absurd hc List.not_mem_nil
  | cons first others ih =>
      rw [List.forall_mem_cons] at h
      cases others with
      | nil => simpa using h.1
      | cons second others =>
          rw [String.intercalate_cons_cons]
          exact clear_append.2 ⟨clear_append.2 ⟨h.1, hs⟩, ih h.2⟩

/-! ### Texts of a kind of characters -/

/-- A text of characters none of which is a control character. -/
theorem clear_of_forall {p : Char → Bool} (h : ∀ c ∈ s.toList, p c = true)
    (hp : ∀ n : Fin 0x20, p (Char.ofNat n) = false) : Clear source s := by
  intro c hc hcontrol
  have hfalse := hp ⟨c.toNat, hcontrol⟩
  rw [Char.ofNat_toNat, h c hc] at hfalse
  cases hfalse

theorem not_isControl_of_mem_hexDigits {c : Char} {n : Nat} (h : c ∈ hexDigits n) : ¬IsControl c := by
  obtain ⟨d, hd, rfl⟩ := exists_digitChar_of_mem h
  have key : ∀ d : Fin 16, ¬IsControl (Nat.digitChar d) := by decide
  exact key ⟨d, hd⟩

theorem not_isControl_of_mem_escapeChar {c d : Char} (h : d ∈ escapeChar c) : ¬IsControl d := by
  have hall : ∀ {l : List Char}, l.all (fun e => !decide (IsControl e)) = true → d ∈ l →
      ¬IsControl d := fun h hd => by simpa using List.all_eq_true.1 h d hd
  have he := escapes_escapeChar c
  generalize escapeChar c = cs at he h
  cases he with
  | tab => exact hall rfl h
  | carriageReturn => exact hall rfl h
  | lineFeed => exact hall rfl h
  | marked hc => rcases hc with rfl | rfl | rfl <;> exact hall rfl h
  | plain _ hp =>
      rw [List.mem_singleton.1 h]
      exact Nat.not_lt.2 hp.1
  | code =>
      rcases List.mem_append.1 (show d ∈ ['\\', 'u', '\x7b'] ++ (hexDigits c.toNat ++ ['\x7d']) from h)
        with h | h
      · exact hall rfl h
      · rcases List.mem_append.1 h with h | h
        · exact not_isControl_of_mem_hexDigits h
        · exact hall rfl h

/-- **An escaped text is clear**, whatever the text. -/
@[simp] theorem clear_escape (s : String) : Clear source (escape s) := by
  intro d hd hcontrol
  rw [toList_escape] at hd
  obtain ⟨c, -, hc⟩ := List.mem_flatMap.1 hd
  exact absurd hcontrol (not_isControl_of_mem_escapeChar hc)

@[simp] theorem clear_naturalText (n : Nat) : Clear source (Number.naturalText n) := by
  refine clear_of_forall (p := Char.isDigit) (fun c hc => ?_) (by decide)
  rw [Number.naturalText, String.toList_ofList] at hc
  exact Nat.isDigit_of_mem_toDigits (by decide) (by decide) hc

/-! ### Pieces -/

theorem trim_subset (cs : List Char) : trim cs ⊆ cs := by
  intro c hc
  have hstart := List.mem_reverse.1 ((List.dropWhile_sublist isBlank).subset (List.mem_reverse.1 hc))
  exact (List.dropWhile_sublist isBlank).subset hstart

theorem dropBytes_subset (n : Nat) (cs : List Char) : dropBytes n cs ⊆ cs := by
  induction cs generalizing n with
  | nil => cases n <;> exact List.Subset.refl _
  | cons c cs ih =>
      cases n with
      | zero => exact List.Subset.refl _
      | succ n => exact List.subset_cons_of_subset c (ih _)

theorem takeBytes_subset (n : Nat) (cs : List Char) : takeBytes n cs ⊆ cs := by
  induction cs generalizing n with
  | nil => cases n <;> exact List.Subset.refl _
  | cons c cs ih =>
      cases n with
      | zero => exact List.nil_subset _
      | succ n => exact List.cons_subset_cons c (ih _)

theorem slice_subset (cs : List Char) (span : Span) : slice cs span ⊆ cs :=
  List.Subset.trans (takeBytes_subset _ _) (dropBytes_subset _ _)

theorem subset_intercalate (separator : List Char) {pieces : List (List Char)}
    (h : cs ∈ pieces) : cs ⊆ separator.intercalate pieces := by
  induction pieces with
  | nil => cases h
  | cons first others ih =>
      cases others with
      | nil =>
          rw [List.mem_singleton.1 h, List.intercalate_singleton]
          exact List.Subset.refl _
      | cons second others =>
          rw [List.intercalate_cons_cons]
          rcases List.mem_cons.1 h with rfl | h
          · exact List.subset_append_of_subset_left _ (List.subset_append_left _ _)
          · exact List.subset_append_of_subset_right _ (ih h)

/-! ### Checks -/

section Checks

variable {ε ε' α β : Type} {message : ε → String} {message' : ε' → String} {P : α → Prop}
  {Q : β → Prop} {x : Except ε α}

/-- An answer satisfies `P`, and the text of an error is clear. -/
def Tells (source : List Char) (message : ε → String) (P : α → Prop) : Except ε α → Prop
  | .ok a => P a
  | .error e => Clear source (message e)

namespace Tells

theorem bind {k : α → Except ε β} (hx : Tells source message P x)
    (hk : ∀ a, P a → Tells source message Q (k a)) : Tells source message Q (x >>= k) := by
  cases x with
  | ok a => exact hk a hx
  | error e => exact hx

theorem map {f : α → β} (hx : Tells source message P x) (hf : ∀ a, P a → Q (f a)) :
    Tells source message Q (x.map f) := by
  cases x with
  | ok a => exact hf a hx
  | error e => exact hx

/-- An error that is passed on as another one. -/
theorem mapError {f : ε → ε'} (hx : Tells source message P x)
    (hf : ∀ e, Clear source (message e) → Clear source (message' (f e))) :
    Tells source message' P (x.mapError f) := by
  cases x with
  | ok a => exact hx
  | error e => exact hf e hx

end Tells

end Checks

end StackHeap.Text
