import StackHeap.Proofs.Snapshot.Places
import StackHeap.Session.Report

/-! # Where the addresses in a message begin

A message may end in the addresses of collected entries, behind `; collected `.  The text in front of
them is free to show any string, `"; collected 0x1"` among them.  Still a reader who takes the last
semicolon for the beginning of the addresses is never misled.

A string is shown between quotes, and no address contains a quote.  So a text is called *sealed* if a
quote comes after each of its semicolons (`Sealed`).  Names, types, addresses and values are sealed,
and so is what is put together from sealed texts.  If what a message says besides the addresses is
sealed, the message ends in these addresses, in all of them, and in no others (`EndsIn`,
`endsIn_append`). -/

namespace StackHeap

open Command Number Store Text

/-! ### Sealed texts -/

section SealedTexts

variable {s t : String} {v : Value} {a : Address}

/-- A quote comes after each semicolon. -/
def Sealed (s : String) : Prop :=
  ∀ x y, s.toList = x ++ ';' :: y → '"' ∈ y ∨ '\'' ∈ y

theorem sealed_of_notMem (h : ';' ∉ s.toList) : Sealed s := by
  intro x y he
  rw [he] at h
  exact absurd (List.mem_append_right x List.mem_cons_self) h

theorem sealed_of_forall {p : Char → Bool} (h : ∀ c ∈ s.toList, p c = true) (hp : p ';' = false) :
    Sealed s :=
  sealed_of_notMem fun hc => by
    rw [h _ hc] at hp
    cases hp

/-- A text that ends with a quote is sealed, whatever comes before. -/
theorem sealed_of_quote {cs : List Char} {q : Char} (he : s.toList = cs ++ [q])
    (hq : q = '"' ∨ q = '\'') : Sealed s := by
  intro x y hxy
  rw [he] at hxy
  rcases List.eq_nil_or_concat y with rfl | ⟨y, c, rfl⟩
  · obtain ⟨-, hlast⟩ := List.append_inj' hxy rfl
    cases hlast
    rcases hq with h | h <;> cases h
  · rw [List.concat_eq_append, ← List.cons_append, ← List.append_assoc] at hxy
    obtain ⟨-, hlast⟩ := List.append_inj' hxy rfl
    cases hlast
    exact hq.imp (fun h => by simp [h]) fun h => by simp [h]

theorem Sealed.append (hs : Sealed s) (ht : Sealed t) : Sealed (s ++ t) := by
  intro x y he
  rw [String.toList_append] at he
  -- The semicolon stands in the second text or in the first.
  rcases List.append_eq_append_iff.1 he with ⟨z, -, hz⟩ | ⟨z, hz, hy⟩
  · exact ht z y hz
  · cases z with
    | nil => exact ht [] y hy.symm
    | cons c z =>
        obtain ⟨rfl, rfl⟩ := List.cons.inj hy
        exact (hs x z hz).imp (List.mem_append_left _) (List.mem_append_left _)

/-- Two sealed texts with a word between them. -/
theorem Sealed.join {word : String} (hs : Sealed s) (hword : ';' ∉ word.toList) (ht : Sealed t) :
    Sealed (s ++ word ++ t) :=
  (hs.append (sealed_of_notMem hword)).append ht

theorem sealed_of_isIdentifier (h : IsIdentifier s) : Sealed s :=
  sealed_of_forall (isWordChar_of_isIdentifier h) (by decide)

theorem sealed_typeText {type : DeclaredType} (h : type.Legible) : Sealed type.text :=
  sealed_of_forall (DeclaredType.isTypeChar_of_mem_text h) (by decide)

theorem sealed_token (h : a.Plain) : Sealed a.token := sealed_of_forall h.chars (by decide)

theorem sealed_naturalText (n : Nat) : Sealed (naturalText n) :=
  sealed_of_forall (p := Char.isDigit) (fun c hc => by
    rw [naturalText, String.toList_ofList] at hc
    exact isDigit_of_mem_decimalDigits hc) (by decide)

/-- A value that is not quoted has no semicolon. -/
theorem sealed_display {p : Primitive} (h : p.Holds v) : Sealed v.display := by
  by_cases hq : IsQuoted (.primitive p)
  · rcases hq with hq | hq
    · cases hq
      obtain ⟨c, rfl⟩ := exists_of_shows_char (.primitive h)
      exact sealed_of_quote (by rw [display_char, ← List.append_assoc]) (.inr rfl)
    · cases hq
      obtain ⟨s, rfl⟩ := exists_of_shows_string (.primitive h)
      exact sealed_of_quote (by rw [display_text, ← List.append_assoc]) (.inl rfl)
  · exact sealed_of_forall (isNumberChar_of_shows (.primitive h) hq) (by decide)

end SealedTexts

namespace Session

/-! ### Addresses in a row -/

section Addresses

variable {as bs : List Address} {deed text : String}

/-- What stands behind the semicolon. -/
def row (as : List Address) : List Char :=
  " collected ".toList ++ [',', ' '].intercalate (as.map fun a => a.token.toList)

theorem toList_collectedText (hne : as ≠ []) : (collectedText as).toList = ';' :: row as := by
  unfold collectedText row
  rw [if_neg (by simpa using hne), String.toList_append, String.toList_intercalate, List.map_map]
  rfl

/-- The characters of a row. -/
def isRowChar (c : Char) : Bool := isNumberChar c || c = ' ' || c = ','

theorem isRowChar_of_mem (has : ∀ a ∈ as, a.Plain) : ∀ c ∈ row as, isRowChar c = true := by
  have hnumber : ∀ c, isNumberChar c = true → isRowChar c = true := fun c hc => by simp [isRowChar, hc]
  intro c hc
  rcases List.mem_append.1 hc with hc | hc
  · exact List.all_eq_true.1 (show " collected ".toList.all isRowChar = true by decide) c hc
  · cases as with
    | nil => cases hc
    | cons a as =>
        rw [List.forall_mem_cons] at has
        rw [List.map_cons, Unambiguous.intercalate_cons_eq, List.mem_append] at hc
        rcases hc with hc | hc
        · exact hnumber c (has.1.chars c hc)
        · obtain ⟨token, ht, hc⟩ := List.mem_flatMap.1 hc
          obtain ⟨b, hb, rfl⟩ := List.mem_map.1 ht
          rcases List.mem_append.1 hc with hc | hc
          · exact List.all_eq_true.1 (show [',', ' '].all isRowChar = true by decide) c hc
          · exact hnumber c ((has.2 b hb).chars c hc)

/-- Behind the semicolon there is neither another one nor a quote. -/
theorem notMem_row {c : Char} (has : ∀ a ∈ as, a.Plain) (hc : isRowChar c = false) : c ∉ row as :=
  fun hmem => by
    rw [isRowChar_of_mem has c hmem] at hc
    cases hc

/-- A row tells its addresses. -/
theorem row_injOn (has : ∀ a ∈ as, a.Plain) (hbs : ∀ b ∈ bs, b.Plain) (h : row as = row bs) :
    as = bs := by
  refine (unambiguous_token.list [',', ' '] (· = []) (fun r => stops_cons rfl _) ?_ ?_ ?_).eq_of_eq
    rfl has hbs (List.append_cancel_left h)
  · rintro r rfl
    exact stops_nil
  · intro a r ha he
    have hhead := ha.head?_append r
    rw [he] at hhead
    cases hhead
  · intro r he
    cases he

/-- Texts with a mark that does not come again are the same behind it. -/
theorem eq_of_append_cons {α : Type} {c : α} {x y r s : List α} (hr : c ∉ r) (hs : c ∉ s)
    (h : x ++ c :: r = y ++ c :: s) : r = s := by
  rcases List.append_eq_append_iff.1 h with ⟨z, -, hz⟩ | ⟨z, -, hz⟩
  · cases z with
    | nil => exact (List.cons.inj hz).2
    | cons d z => exact absurd ((List.cons.inj hz).2 ▸ by simp) hr
  · cases z with
    | nil => exact (List.cons.inj hz).2.symm
    | cons d z => exact absurd ((List.cons.inj hz).2 ▸ by simp) hs

/-- **Behind a sealed text, the addresses told of are all that a message can be read to end in.** -/
theorem collected_eq_of_append (hd : Sealed deed) (has : ∀ a ∈ as, a.Plain)
    (hbs : ∀ b ∈ bs, b.Plain) (h : deed ++ collectedText as = text ++ collectedText bs) :
    bs = [] ∨ bs = as := by
  refine or_iff_not_imp_left.2 fun hne => ?_
  have hlist := congrArg String.toList h
  rw [String.toList_append, String.toList_append, toList_collectedText hne] at hlist
  cases as with
  | nil =>
      -- The semicolon would be one of the sealed text.
      rw [show (collectedText []).toList = [] from rfl, List.append_nil] at hlist
      rcases hd _ _ hlist with hquote | hquote
      · exact absurd hquote (notMem_row hbs (by decide))
      · exact absurd hquote (notMem_row hbs (by decide))
  | cons a as =>
      rw [toList_collectedText (List.cons_ne_nil a as)] at hlist
      have hrow := eq_of_append_cons (notMem_row has (by decide)) (notMem_row hbs (by decide)) hlist
      exact (row_injOn has hbs hrow).symm

/-- A message ends in the addresses `as`, and cannot be read as ending in any others. -/
structure EndsIn (message : String) (as : List Address) : Prop where
  told : ∃ text, message = text ++ collectedText as
  only : ∀ text bs, (∀ b ∈ bs, b.Plain) → message = text ++ collectedText bs → bs = [] ∨ bs = as

theorem endsIn_append (hd : Sealed deed) (has : ∀ a ∈ as, a.Plain) :
    EndsIn (deed ++ collectedText as) as where
  told := ⟨deed, rfl⟩
  only _ _ hbs h := collected_eq_of_append hd has hbs h

end Addresses

end Session

end StackHeap
