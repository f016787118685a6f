import StackHeap.Proofs.Snapshot.Places
import StackHeap.Proofs.Typing.Integers

/-! # Values typed as they are displayed

Which values come back when what is displayed is typed as a literal of their type.

* **Truth values and integers** come back; an integer is displayed with a number's digits behind its
  sign (`lexes_integerText`).
* **Characters and texts** are displayed escaped, and a literal knows fewer escapes than the display:
  no code in hexadecimal, and of the two quotes only the one that encloses it.  What is displayed
  between quotes is read back if all its characters are `Typeable` (`quotes_escape`), and it is no
  literal at all if one is not (`typeable_of_quotes`). -/

namespace StackHeap.Typing

open Text Number Command

/-! ### Integers -/

/-- A number of decimal digits takes all of them. -/
theorem taken_readNumber_digits {digits : List Char} (h : ∀ c ∈ digits, c.isDigit = true) :
    (readNumber false digits).taken = digits := by
  induction digits with
  | nil => rfl
  | cons c digits ih =>
      obtain ⟨hc, hdigits⟩ := List.forall_mem_cons.1 h
      have hexponent : (c = 'e' || c = 'E') = false := by
        simp [Char.ne_of_test hc (show Char.isDigit 'e' = false from rfl),
          Char.ne_of_test hc (show Char.isDigit 'E' = false from rfl)]
      rw [taken_readNumber, if_neg Bool.false_ne_true, isWordChar_of_isDigit hc, Bool.true_or,
        if_pos rfl, hexponent, Bool.false_and, ih hdigits]

theorem lexes_decimalDigits (n : Nat) :
    Lexes (decimalDigits n) [.number (String.ofList (decimalDigits n))] := by
  have hdigits : ∀ c ∈ decimalDigits n, c.isDigit = true := fun _ => isDigit_of_mem_decimalDigits
  obtain ⟨c, digits, hn⟩ := List.exists_cons_of_ne_nil (decimalDigits_ne_nil n)
  rw [hn] at hdigits ⊢
  obtain ⟨hc, hrest⟩ := List.forall_mem_cons.1 hdigits
  have hspell : Spells (c :: digits) (.number (String.ofList (c :: digits))) [] := by
    refine .number (.inl hc) ?_
    rw [List.append_nil]
    exact taken_readNumber_digits hrest
  have hlex := Lexes.lexeme hspell .nil
  rwa [List.append_nil] at hlex

/-- The text of an integer writes that integer. -/
theorem lexes_integerText (n : Int) :
    ∃ ls, Lexes (integerText n).toList ls ∧ WritesInteger ls n := by
  have hdigits : ∀ c ∈ (String.ofList (decimalDigits n.natAbs)).toList, c.isDigit = true := by
    rw [String.toList_ofList]
    exact fun _ => isDigit_of_mem_decimalDigits
  have hvalue : ofDecimalDigits (String.ofList (decimalDigits n.natAbs)).toList = n.natAbs := by
    rw [String.toList_ofList, ofDecimalDigits_decimalDigits]
  have hlex := lexes_decimalDigits n.natAbs
  rw [toList_integerText]
  by_cases hn : n < 0
  · have hminus : Lexes ('-' :: decimalDigits n.natAbs)
        [.mark .minus, .number (String.ofList (decimalDigits n.natAbs))] :=
      .lexeme (.mark .minus) hlex
    refine ⟨_, by simpa [hn] using hminus,
      writesInteger_iff.2 ⟨true, _, .minus _, hdigits, ?_⟩⟩
    rw [signedInteger, if_pos rfl, hvalue]
    omega
  · refine ⟨_, by simpa [hn] using hlex, writesInteger_iff.2 ⟨false, _, .bare _, hdigits, ?_⟩⟩
    rw [signedInteger, if_neg Bool.false_ne_true, hvalue]
    omega

/-! ### Quoted texts -/

/-- A character whose displayed form is read back between quotes, where `other` is the quote that does
not enclose it. -/
def Typeable (other c : Char) : Prop :=
  c = '\t' ∨ c = '\r' ∨ c = '\n' ∨ (0x20 ≤ c.toNat ∧ c.toNat ≤ 0x7E) ∧ c ≠ other

instance (other c : Char) : Decidable (Typeable other c) :=
  inferInstanceAs (Decidable (_ ∨ _))

/-- The two quotes in either order. -/
def AreQuotes (quote other : Char) : Prop := quote = '"' ∧ other = '\'' ∨ quote = '\'' ∧ other = '"'

section

variable {quote other c : Char} {text body taken rest : List Char} (hq : AreQuotes quote other)
include hq

/-- A typeable character is displayed plainly or behind a backslash that a literal knows. -/
theorem escapeChar_of_typeable (hc : Typeable other c) :
    (escapeChar c = [c] ∧ c ≠ '\\' ∧ c ≠ quote) ∨
      ∃ e, escapeChar c = ['\\', e] ∧ unescape? quote e = some c := by
  unfold escapeChar
  split
  · next h => exact .inr ⟨'t', rfl, h ▸ rfl⟩
  · split
    · next h => exact .inr ⟨'r', rfl, h ▸ rfl⟩
    · split
      · next h => exact .inr ⟨'n', rfl, h ▸ rfl⟩
      · split
        · next hmark =>
          refine .inr ⟨c, rfl, ?_⟩
          rcases hq with ⟨rfl, rfl⟩ | ⟨rfl, rfl⟩ <;> rcases hmark with rfl | rfl | rfl <;>
            revert hc <;> decide
        · next htab hreturn hfeed hmark =>
          rw [not_or, not_or] at hmark
          rw [if_pos (((hc.resolve_left htab).resolve_left hreturn).resolve_left hfeed).1]
          refine .inl ⟨rfl, hmark.2.2, ?_⟩
          rcases hq with ⟨rfl, -⟩ | ⟨rfl, -⟩
          · exact hmark.2.1
          · exact hmark.1

/-- Any other character is displayed behind a backslash that a literal does not know. -/
theorem escapeChar_of_not_typeable (hc : ¬Typeable other c) :
    ∃ e more, escapeChar c = '\\' :: e :: more ∧ unescape? quote e = none := by
  unfold Typeable at hc
  simp only [not_or] at hc
  obtain ⟨htab, hreturn, hfeed, hprintable⟩ := hc
  unfold escapeChar
  rw [if_neg htab, if_neg hreturn, if_neg hfeed]
  split
  · next hmark =>
    refine ⟨c, [], rfl, ?_⟩
    rcases hq with ⟨rfl, rfl⟩ | ⟨rfl, rfl⟩ <;> rcases hmark with rfl | rfl | rfl <;>
      revert hprintable <;> decide
  · next hmark =>
    rw [not_or, not_or] at hmark
    rw [if_neg fun hp => hprintable ⟨hp, ?_⟩]
    · refine ⟨'u', _, rfl, ?_⟩
      rcases hq with ⟨rfl, -⟩ | ⟨rfl, -⟩ <;> rfl
    · rcases hq with ⟨-, rfl⟩ | ⟨-, rfl⟩
      · exact hmark.1
      · exact hmark.2.1

/-- **A typeable text is read back.** -/
theorem quotes_escape (ht : ∀ c ∈ text, Typeable other c) :
    Quotes quote (text.flatMap escapeChar ++ [quote]) text := by
  induction text with
  | nil => exact .close
  | cons c text ih =>
      obtain ⟨hc, htext⟩ := List.forall_mem_cons.1 ht
      rw [List.flatMap_cons, List.append_assoc]
      rcases escapeChar_of_typeable hq hc with ⟨he, hslash, hquote⟩ | ⟨e, he, hknown⟩
      · rw [he]
        exact .plain hslash hquote (ih htext)
      · rw [he]
        exact .escape hknown (ih htext)

/-- **Only a typeable text is read back**, whatever is read of it. -/
theorem typeable_of_quotes {decoded : List Char} (h : Quotes quote taken decoded)
    (he : taken ++ rest = text.flatMap escapeChar ++ [quote]) : ∀ c ∈ text, Typeable other c := by
  have hslash : quote ≠ '\\' := by rcases hq with ⟨rfl, -⟩ | ⟨rfl, -⟩ <;> decide
  induction text generalizing taken decoded with
  | nil => exact fun c hc => absurd hc List.not_mem_nil
  | cons c text ih =>
      rw [List.flatMap_cons, List.append_assoc] at he
      by_cases hc : Typeable other c
      · refine List.forall_mem_cons.2 ⟨hc, ?_⟩
        rcases escapeChar_of_typeable hq hc with ⟨hplain, hne, hquote⟩ | ⟨e, hescape, -⟩
        · rw [hplain] at he
          cases h with
          | close => exact absurd (List.cons.inj he).1.symm hquote
          | escape _ _ => exact absurd (List.cons.inj he).1.symm hne
          | plain _ _ h => exact ih h (List.cons.inj he).2
        · rw [hescape] at he
          cases h with
          | close => exact absurd (List.cons.inj he).1 hslash
          | escape _ h => exact ih h (List.cons.inj (List.cons.inj he).2).2
          | plain hb _ _ => exact absurd (List.cons.inj he).1 hb
      · obtain ⟨e, more, hescape, hunknown⟩ := escapeChar_of_not_typeable hq hc
        rw [hescape] at he
        cases h with
        | close => exact absurd (List.cons.inj he).1 hslash
        | escape hd _ =>
            rw [(List.cons.inj (List.cons.inj he).2).1, hunknown] at hd
            cases hd
        | plain hb _ _ => exact absurd (List.cons.inj he).1 hb

end

/-- What starts with a quote and can be read starts with a quoted literal. -/
theorem exists_quotes_of_lexes {quote : Char} {cs : List Char} {ls : List Lexeme}
    (hq : quote = '"' ∨ quote = '\'') (h : Lexes (quote :: cs) ls) :
    ∃ taken rest decoded, taken ++ rest = cs ∧ Quotes quote taken decoded := by
  have htests : isBlank quote = false ∧ quote.isDigit = false ∧ quote ≠ '.' ∧
      quote.isAlpha = false ∧ quote ≠ '_' := by
    rcases hq with rfl | rfl <;> decide
  obtain ⟨hblank, hdigit, hpoint, halpha, hunderscore⟩ := htests
  generalize hw : quote :: cs = whole at h
  cases h with
  | nil => cases hw
  | blank hb _ =>
      rw [← (List.cons.inj hw).1, hblank] at hb
      cases hb
  | lexeme hs _ =>
      cases hs with
      | stringLiteral h =>
          obtain ⟨rfl, rfl⟩ := List.cons.inj hw
          exact ⟨_, _, _, rfl, h⟩
      | charLiteral h =>
          obtain ⟨rfl, rfl⟩ := List.cons.inj hw
          exact ⟨_, _, _, rfl, h⟩
      | number hc _ =>
          obtain ⟨rfl, -⟩ := List.cons.inj hw
          rcases hc with hc | ⟨hc, -⟩
          · rw [hdigit] at hc
            cases hc
          · exact absurd hc hpoint
      | word hc _ _ =>
          obtain ⟨rfl, -⟩ := List.cons.inj hw
          rcases hc with hc | hc
          · rw [halpha] at hc
            cases hc
          · exact absurd hc hunderscore
      | mark m =>
          obtain ⟨hm, -⟩ := List.cons.inj hw
          obtain ⟨hstring, hchar, -⟩ := mark_char_plain m
          rcases hq with rfl | rfl
          · exact absurd hm.symm hstring
          · exact absurd hm.symm hchar

theorem trim_quoted {quote : Char} (hq : isBlank quote = false) (body : List Char) :
    trim (quote :: (body ++ [quote])) = quote :: (body ++ [quote]) := by
  rw [trim, trimStart, List.dropWhile_cons_of_neg (by simp [hq]), trimEnd, ← List.cons_append,
    List.reverse_append, List.reverse_singleton, List.singleton_append,
    List.dropWhile_cons_of_neg (by simp [hq]), List.reverse_cons, List.reverse_reverse]

/-- **A quoted text is checked by its characters.**  If all of them are typeable, what is displayed
is the literal of the text; otherwise it is no literal. -/
theorem checkPrimitive_quoted {quote other : Char} (hq : AreQuotes quote other) (type : Primitive)
    (text : List Char) {l : Lexeme} {v : Value}
    (hspells : ∀ body, Quotes quote body text → Spells (quote :: body) l [])
    (hliteral : LiteralOf type [l] v) :
    let shown := quote :: (text.flatMap escapeChar ++ [quote])
    checkPrimitive type shown =
      if text.all (Typeable other ·) then .ok v
      else .error (.invalid type (String.ofList shown)) := by
  intro shown
  have hquote : quote = '"' ∨ quote = '\'' := hq.imp And.left And.left
  split
  · next ht =>
    have htext : ∀ c ∈ text, Typeable other c := fun c hc =>
      of_decide_eq_true (List.all_eq_true.1 ht c hc)
    have hlex := Lexes.lexeme (hspells _ (quotes_escape hq htext)) .nil
    rw [List.append_nil] at hlex
    exact (checkPrimitive_eq_ok_iff hlex).2 hliteral
  · next ht =>
    have hread : lexemes? shown = none := by
      rw [Option.eq_none_iff_forall_ne_some]
      intro ls hls
      obtain ⟨taken, rest, decoded, he, hquotes⟩ :=
        exists_quotes_of_lexes hquote (lexemes?_eq_some_iff.1 hls)
      exact ht (List.all_eq_true.2 fun c hc => decide_eq_true (typeable_of_quotes hq hquotes he c hc))
    have hblank : isBlank quote = false := by rcases hquote with rfl | rfl <;> rfl
    rw [checkPrimitive_of_not_readable hread, trim_quoted hblank]

/-! ### Values -/

/-- **Which displayed values can be typed.**  Truth values and the integers of a type come back.  A
text comes back if all its characters are tabs, carriage returns, line feeds or printable ones other
than the single quote, and a character if it is one of these with the double quote in place of the
single one; any other text or character is refused, with what is displayed as the reason. -/
theorem checkPrimitive_display :
    (∀ b, checkPrimitive .boolean (Value.bool b).display.toList = .ok (.bool b)) ∧
    (∀ (type : Primitive) (n : Int), type.InRange n →
      checkPrimitive type (Value.int n).display.toList = .ok (.int n)) ∧
    (∀ s : String, checkPrimitive .string (Value.text s).display.toList =
      if s.toList.all (Typeable '\'' ·) then .ok (.text s)
      else .error (.invalid .string (Value.text s).display)) ∧
    ∀ c, checkPrimitive .char (Value.char c).display.toList =
      if Typeable '"' c then .ok (.char c)
      else .error (.invalid .char (Value.char c).display) := by
  refine ⟨fun b => ?_, fun type n hn => ?_, fun s => ?_, fun c => ?_⟩
  · cases b <;> decide +kernel
  · obtain ⟨bits, hb, hlow, hhigh⟩ := Primitive.inRange_iff.1 hn
    obtain ⟨ls, hlex, hwrites⟩ := lexes_integerText n
    show checkPrimitive type (integerText n).toList = _
    rw [checkPrimitive_of_writesInteger hb hlex hwrites, if_pos ⟨hlow, hhigh⟩]
  · have hshown : '"' :: (s.toList.flatMap escapeChar ++ ['"']) = (Value.text s).display.toList := by
      rw [display_text, toList_escape]
      rfl
    have hcheck := checkPrimitive_quoted (.inl ⟨rfl, rfl⟩) .string s.toList
      (fun _ h => .stringLiteral h) (.text _)
    dsimp only at hcheck
    rwa [hshown, String.ofList_toList, String.ofList_toList] at hcheck
  · have hshown : '\'' :: ([c].flatMap escapeChar ++ ['\'']) = (Value.char c).display.toList := by
      rw [display_char, toList_escape]
      simp
    have hcheck := checkPrimitive_quoted (.inr ⟨rfl, rfl⟩) .char [c]
      (fun _ h => .charLiteral h) (.char String.toList_ofList)
    dsimp only at hcheck
    rw [hshown, String.ofList_toList] at hcheck
    exact hcheck.trans (if_congr (by simp) rfl rfl)

/-- The least `byte` comes back; a tab in a text does, and a single quote in a text does not. -/
theorem checkPrimitive_display_cases :
    Primitive.byte.InRange (-128) ∧
    checkPrimitive .byte (Value.int (-128)).display.toList = .ok (.int (-128)) ∧
    checkPrimitive .string (Value.text "a\tb").display.toList = .ok (.text "a\tb") ∧
    checkPrimitive .string (Value.text "it's").display.toList =
      .error (.invalid .string (Value.text "it's").display) := by
  obtain ⟨-, hint, htext, -⟩ := checkPrimitive_display
  have hrange : Primitive.byte.InRange (-128) := ⟨_, rfl, by decide, by decide⟩
  refine ⟨hrange, hint .byte (-128) hrange, ?_, ?_⟩
  · exact (htext "a\tb").trans (if_pos (by decide +kernel))
  · exact (htext "it's").trans (if_neg (by decide +kernel))

end StackHeap.Typing
