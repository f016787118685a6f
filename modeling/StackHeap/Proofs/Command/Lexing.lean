import StackHeap.Proofs.Text.Unambiguous
import StackHeap.Proofs.Typing.Checked

/-! # Lexemes and their spellings

A text is read as lexemes (`Lexes`): blanks are dropped, and every other part spells a lexeme
(`Spells`).  Whether a part spells a lexeme depends on what comes after it, because words and
numbers run on as far as they can.

* **Readers.**  `readLexeme` reads exactly what is spelled (`readLexeme_of_spells`,
  `spells_of_readLexeme`), so `Lexes` is what `tokenize` finds, places apart
  (`lexemes?_eq_some_iff`).
* **Cutting.**  A part spells the same lexeme when the text behind it is cut short
  (`Spells.of_append`): reading never takes a character on account of one further on, except for
  the sign and the digit of an exponent, which it then takes too. -/

namespace StackHeap.Command

open Text Typing

/-! ### Characters -/

theorem Char.ne_of_test {p : Char → Bool} {c d : Char} (hc : p c = true) (hd : p d = false) :
    c ≠ d := by
  rintro rfl
  rw [hc] at hd
  cases hd

theorem isWordChar_of_isAlpha {c : Char} (h : c.isAlpha = true ∨ c = '_') :
    isWordChar c = true := by
  rcases h with h | rfl
  · simp [isWordChar, Char.isAlphanum, h]
  · rfl

theorem isWordChar_of_isDigit {c : Char} (h : c.isDigit = true) : isWordChar c = true := by
  simp [isWordChar, Char.isAlphanum, h]

theorem toNat_of_isAlpha {c : Char} (h : c.isAlpha = true) :
    65 ≤ c.toNat ∧ c.toNat ≤ 90 ∨ 97 ≤ c.toNat ∧ c.toNat ≤ 122 := by
  change (decide (c.val ≥ 'A'.val ∧ c.val ≤ 'Z'.val) ||
    (decide (c.val ≥ 'a'.val) && decide (c.val ≤ 'z'.val))) = true at h
  simp only [Bool.or_eq_true, Bool.and_eq_true, decide_eq_true_eq] at h
  exact h

theorem isBlank_of_isWordChar {c : Char} (h : isWordChar c = true) : isBlank c = false := by
  have hc : 48 ≤ c.toNat ∧ c.toNat ≤ 122 := by
    simp only [isWordChar, Char.isAlphanum, Bool.or_eq_true, decide_eq_true_eq] at h
    rcases h with (h | h) | rfl
    · have ha := toNat_of_isAlpha h
      omega
    · obtain ⟨h0, h9⟩ := Char.isDigit_iff_toNat.1 h
      exact ⟨h0, Nat.le_trans h9 (by decide)⟩
    · decide
  simp only [isBlank, Bool.or_eq_false_iff, Bool.and_eq_false_iff, decide_eq_false_iff_not]
  omega

theorem isDigit_of_isAlpha {c : Char} (h : c.isAlpha = true ∨ c = '_') : c.isDigit = false := by
  rcases h with h | rfl
  · have ha := toNat_of_isAlpha h
    rw [Bool.eq_false_iff]
    intro hd
    have h9 : c.toNat ≤ 57 := (Char.isDigit_iff_toNat.1 hd).2
    omega
  · decide

/-- The characters of a number. -/
def isNumberChar (c : Char) : Bool := isWordChar c || c = '.' || c = '+' || c = '-'

theorem isBlank_of_isNumberChar {c : Char} (h : isNumberChar c = true) : isBlank c = false := by
  simp only [isNumberChar, Bool.or_eq_true, decide_eq_true_eq] at h
  rcases h with ((h | rfl) | rfl) | rfl
  · exact isBlank_of_isWordChar h
  · decide
  · decide
  · decide

/-! ### Quoted contents -/

/-- The text `body` spells `text` between two `quote`s, the closing one included. -/
inductive Quotes (quote : Char) : List Char → List Char → Prop where
  | close : Quotes quote [quote] []
  | escape {c d : Char} {body text : List Char} (hd : unescape? quote c = some d)
      (h : Quotes quote body text) : Quotes quote ('\\' :: c :: body) (d :: text)
  | plain {c : Char} {body text : List Char} (hb : c ≠ '\\') (hq : c ≠ quote)
      (h : Quotes quote body text) : Quotes quote (c :: body) (c :: text)

theorem readQuoted_of_quotes {quote : Char} (hq : quote ≠ '\\') {body text : List Char}
    (h : Quotes quote body text) (unclosed : LexError) (offset : Nat) (rest : List Char) :
    readQuoted quote unclosed offset (body ++ rest) = .ok ⟨text, body, rest, rfl⟩ := by
  induction h generalizing offset with
  | close =>
      show readQuoted quote unclosed offset (quote :: rest) = _
      rw [readQuoted, if_pos rfl]
      · exact fun h => absurd h hq
      · exact fun _ _ h => absurd h hq
  | @escape c d body text hd _ ih =>
      show readQuoted quote unclosed offset ('\\' :: c :: (body ++ rest)) = _
      rw [readQuoted, hd]
      dsimp only
      rw [ih]
      rfl
  | @plain c body text hb hc _ ih =>
      show readQuoted quote unclosed offset (c :: (body ++ rest)) = _
      rw [readQuoted, if_neg hc, ih]
      · rfl
      · exact fun h => absurd h hb
      · exact fun _ _ h => absurd h hb

theorem quotes_of_readQuoted {quote : Char} {unclosed : LexError} {offset : Nat} {cs : List Char}
    {r : Reading (List Char) cs} (h : readQuoted quote unclosed offset cs = .ok r) :
    Quotes quote r.taken r.value := by
  induction offset, cs using readQuoted.induct quote with
  | case1 => cases h
  | case2 => cases h
  | case3 offset c cs hn =>
      rw [readQuoted, hn] at h
      cases h
  | case4 offset c cs d hd ih =>
      rw [readQuoted, hd] at h
      dsimp only at h
      obtain ⟨r', hr', rfl⟩ := map_eq_ok.1 h
      exact .escape hd (ih hr')
  | case5 offset cs h1 h2 =>
      rw [readQuoted, if_pos rfl] at h
      · cases h
        exact .close
      · exact h1
      · exact h2
  | case6 offset c cs h1 h2 hc ih =>
      rw [readQuoted, if_neg hc] at h
      · obtain ⟨r', hr', rfl⟩ := map_eq_ok.1 h
        refine .plain ?_ hc (ih hr')
        rintro rfl
        cases cs with
        | nil => exact h1 rfl rfl
        | cons d cs => exact h2 d cs rfl rfl
      · exact h1
      · exact h2

/-! ### Numbers -/

/-- What a number takes of a text. -/
theorem taken_readNumber (signed : Bool) (c : Char) (cs : List Char) :
    (readNumber signed (c :: cs)).taken =
      if signed then c :: (readNumber false cs).taken
      else if isWordChar c || c = '.' then
        c :: (readNumber ((c = 'e' || c = 'E') && startsSigned cs) cs).taken
      else [] := by
  rw [readNumber]
  split
  · rfl
  · split <;> rfl

theorem startsSigned_append {cs more : List Char} (h : startsSigned cs = true) :
    startsSigned (cs ++ more) = true := by
  match cs, h with
  | s :: d :: _, h => exact h

/-- A sign that is read belongs to an exponent, so only number characters are taken. -/
theorem isNumberChar_of_mem_readNumber {signed : Bool} {cs : List Char}
    (hs : signed = true → startsSigned cs = true) :
    ∀ c ∈ (readNumber signed cs).taken, isNumberChar c = true := by
  induction cs generalizing signed with
  | nil => exact fun c hc => absurd hc List.not_mem_nil
  | cons d cs ih =>
      rw [taken_readNumber]
      intro c hc
      split at hc
      · next hsigned =>
          rcases List.mem_cons.1 hc with rfl | hc
          · match cs, hs hsigned with
            | _ :: _, h =>
                simp only [startsSigned, Bool.and_eq_true, Bool.or_eq_true, decide_eq_true_eq] at h
                rcases h.1 with rfl | rfl <;> decide
          · exact ih (fun h => by cases h) c hc
      · split at hc
        · next hd =>
            rcases List.mem_cons.1 hc with rfl | hc
            · simp only [isNumberChar, hd, Bool.true_or]
            · exact ih (fun h => (Bool.and_eq_true _ _ ▸ h).2) c hc
        · exact absurd hc List.not_mem_nil

theorem isWordChar_of_startsSigned {s d : Char} {cs : List Char}
    (h : startsSigned (s :: d :: cs) = true) : isWordChar d = true := by
  simp only [startsSigned, Bool.and_eq_true] at h
  exact isWordChar_of_isDigit h.2

/-- The sign and the digit of an exponent are taken. -/
theorem startsSigned_taken {cs : List Char} (h : startsSigned cs = true) :
    startsSigned (readNumber true cs).taken = true := by
  match cs, h with
  | s :: d :: cs, h =>
      rw [taken_readNumber, if_pos rfl, taken_readNumber, if_neg Bool.false_ne_true, if_pos]
      · exact h
      · simp only [isWordChar_of_startsSigned h, Bool.true_or]

/-- Whether the sign of an exponent follows is seen in what is taken. -/
theorem startsSigned_of_taken {exponent : Bool} {taken p q : List Char}
    (h : (readNumber (exponent && startsSigned (taken ++ (p ++ q))) (taken ++ (p ++ q))).taken =
      taken) :
    (exponent && startsSigned (taken ++ (p ++ q))) = (exponent && startsSigned (taken ++ p)) := by
  cases exponent with
  | false => rfl
  | true =>
      rw [Bool.true_and, Bool.true_and]
      rw [Bool.true_and] at h
      cases hfull : startsSigned (taken ++ (p ++ q)) with
      | true =>
          have ht := startsSigned_taken hfull
          rw [hfull] at h
          rw [h] at ht
          rw [startsSigned_append ht]
      | false =>
          cases hcut : startsSigned (taken ++ p) with
          | false => rfl
          | true =>
              have ht : startsSigned (taken ++ p ++ q) = true := startsSigned_append hcut
              rw [List.append_assoc, hfull] at ht
              cases ht

/-- What a number takes, it takes when the text behind is cut short. -/
theorem taken_readNumber_of_append {signed : Bool} {taken p q : List Char}
    (h : (readNumber signed (taken ++ (p ++ q))).taken = taken) :
    (readNumber signed (taken ++ p)).taken = taken := by
  induction taken generalizing signed with
  | nil =>
      cases p with
      | nil => rfl
      | cons c p =>
          rw [List.nil_append, List.cons_append, taken_readNumber] at h
          rw [List.nil_append, taken_readNumber]
          split at h
          · cases h
          · next hs =>
              split at h
              · cases h
              · next hc => rw [if_neg hs, if_neg hc]
  | cons c taken ih =>
      rw [List.cons_append, taken_readNumber] at h
      rw [List.cons_append, taken_readNumber]
      split at h
      · next hs =>
          rw [if_pos hs, ih (List.cons.inj h).2]
      · next hs =>
          split at h
          · next hc =>
              rw [if_neg hs, if_pos hc]
              have htail := (List.cons.inj h).2
              rw [startsSigned_of_taken htail] at htail
              rw [ih htail]
          · cases h

/-! ### Spellings -/

/-- The text `piece`, with `rest` behind it, spells a lexeme. -/
inductive Spells : List Char → Lexeme → List Char → Prop where
  | stringLiteral {body text rest : List Char} (h : Quotes '"' body text) :
      Spells ('"' :: body) (.stringLiteral (String.ofList text)) rest
  | charLiteral {body text rest : List Char} (h : Quotes '\'' body text) :
      Spells ('\'' :: body) (.charLiteral (String.ofList text)) rest
  | number {c : Char} {taken rest : List Char}
      (hc : c.isDigit = true ∨ c = '.' ∧ taken.head?.any Char.isDigit = true)
      (h : (readNumber false (taken ++ rest)).taken = taken) :
      Spells (c :: taken) (.number (String.ofList (c :: taken))) rest
  | word {c : Char} {taken rest : List Char} (hc : c.isAlpha = true ∨ c = '_')
      (hw : ∀ d ∈ taken, isWordChar d = true) (hr : ∀ d ∈ rest.head?, isWordChar d = false) :
      Spells (c :: taken) (wordLexeme (String.ofList (c :: taken))) rest
  | mark {rest : List Char} (m : Mark) : Spells [m.char] (.mark m) rest

/-- All characters of a spelled number are number characters. -/
theorem isNumberChar_of_spells {c : Char} {taken rest : List Char}
    (hc : c.isDigit = true ∨ c = '.' ∧ taken.head?.any Char.isDigit = true)
    (h : (readNumber false (taken ++ rest)).taken = taken) :
    ∀ d ∈ c :: taken, isNumberChar d = true := by
  intro d hd
  rcases List.mem_cons.1 hd with rfl | hd
  · rcases hc with hc | ⟨rfl, -⟩
    · simp [isNumberChar, isWordChar_of_isDigit hc]
    · decide
  · rw [← h] at hd
    exact isNumberChar_of_mem_readNumber (fun h => by cases h) d hd

/-- All characters of a spelled word are word characters. -/
theorem isWordChar_of_spells {c : Char} {taken : List Char} (hc : c.isAlpha = true ∨ c = '_')
    (hw : ∀ d ∈ taken, isWordChar d = true) : ∀ d ∈ c :: taken, isWordChar d = true := by
  intro d hd
  rcases List.mem_cons.1 hd with rfl | hd
  · exact isWordChar_of_isAlpha hc
  · exact hw d hd

theorem reading_eq {α : Type} {cs : List Char} {r s : Reading α cs} (hv : r.value = s.value)
    (ht : r.taken = s.taken) : r = s := by
  obtain ⟨value, taken, rest, joined⟩ := r
  obtain ⟨value', taken', rest', joined'⟩ := s
  obtain rfl : value = value' := hv
  obtain rfl : taken = taken' := ht
  obtain rfl : rest = rest' := List.append_cancel_left (joined.trans joined'.symm)
  rfl

theorem ofChar?_eq_some {c : Char} {m : Mark} (h : Mark.ofChar? c = some m) : m.char = c := by
  unfold Mark.ofChar? at h
  split at h <;> cases h <;> rfl

theorem mark_char_plain (m : Mark) : m.char ≠ '"' ∧ m.char ≠ '\'' ∧ m.char ≠ '.' ∧
    m.char ≠ '_' ∧ m.char.isDigit = false ∧ m.char.isAlpha = false := by
  rcases m with _ | _ | _ | _ | _ | b | b <;> first | decide | (cases b <;> decide)

theorem readLexeme_of_spells {c : Char} {taken rest : List Char} {l : Lexeme}
    (h : Spells (c :: taken) l rest) (offset : Nat) :
    readLexeme offset c (taken ++ rest) = .ok ⟨l, taken, rest, rfl⟩ := by
  cases h with
  | stringLiteral h =>
      rw [readLexeme, if_pos rfl, readQuoted_of_quotes (by decide) h]
      rfl
  | charLiteral h =>
      rw [readLexeme, if_neg (by decide), if_pos rfl, readQuoted_of_quotes (by decide) h]
      rfl
  | number hc h =>
      have hq : c ≠ '"' ∧ c ≠ '\'' := by
        rcases hc with hc | ⟨rfl, -⟩
        · exact ⟨Char.ne_of_test hc (by decide), Char.ne_of_test hc (by decide)⟩
        · decide
      rw [readLexeme, if_neg hq.1, if_neg hq.2, if_pos]
      · refine congrArg Except.ok (reading_eq ?_ h)
        dsimp only
        rw [h]
      · rcases hc with hc | ⟨rfl, hd⟩
        · rw [hc, Bool.true_or]
        · cases taken with
          | nil => cases hd
          | cons d taken =>
              simp only [List.head?_cons, Option.any_some] at hd
              simp [hd]
  | word hc hw hr =>
      have hword := isWordChar_of_isAlpha hc
      have hdigit := isDigit_of_isAlpha hc
      have hpoint : c ≠ '.' := Char.ne_of_test hword (by decide)
      rw [readLexeme, if_neg (Char.ne_of_test hword (by decide)),
        if_neg (Char.ne_of_test hword (by decide)), if_neg, if_pos]
      · have ht : (readWhile isWordChar (taken ++ rest)).taken = taken :=
          takeWhile_append_of_stops hw hr
        refine congrArg Except.ok (reading_eq ?_ ht)
        dsimp only
        rw [ht]
      · simpa using hc
      · simp [hdigit, hpoint]
  | mark m =>
      obtain ⟨h1, h2, h3, h4, h5, h6⟩ := mark_char_plain m
      rw [readLexeme, if_neg h1, if_neg h2, if_neg (by simp [h3, h5]), if_neg (by simp [h4, h6]),
        Mark.ofChar?_char]
      rfl

theorem spells_of_readLexeme {offset : Nat} {c : Char} {cs : List Char} {r : Reading Lexeme cs}
    (h : readLexeme offset c cs = .ok r) : Spells (c :: r.taken) r.value r.rest := by
  unfold readLexeme at h
  split at h
  · next hc =>
      subst hc
      obtain ⟨r', hr', rfl⟩ := map_eq_ok.1 h
      exact .stringLiteral (quotes_of_readQuoted hr')
  · split at h
    · next hc =>
        subst hc
        obtain ⟨r', hr', rfl⟩ := map_eq_ok.1 h
        exact .charLiteral (quotes_of_readQuoted hr')
    · split at h
      · next hc =>
          cases h
          refine .number ?_ (by rw [(readNumber false cs).joined])
          simp only [Bool.or_eq_true, Bool.and_eq_true, decide_eq_true_eq] at hc
          refine hc.imp_right fun ⟨hpoint, hd⟩ => ⟨hpoint, ?_⟩
          cases cs with
          | nil => cases hd
          | cons d cs =>
              have hd : d.isDigit = true := hd
              rw [taken_readNumber, if_neg Bool.false_ne_true,
                if_pos (by rw [isWordChar_of_isDigit hd, Bool.true_or])]
              exact hd
      · split at h
        · next hc =>
            cases h
            refine .word (by simpa using hc) (fun d hd => ?_) fun d hd => ?_
            · exact List.all_eq_true.1 List.all_takeWhile d hd
            · have hstop := List.head?_dropWhile_not isWordChar cs
              have hd : (cs.dropWhile isWordChar).head? = some d := hd
              rw [hd] at hstop
              exact hstop
        · split at h
          · next m hm =>
              cases h
              rw [← ofChar?_eq_some hm]
              exact .mark m
          · cases h

theorem wordLexeme_ne_mark (word : String) (m : Mark) : wordLexeme word ≠ .mark m := by
  unfold wordLexeme
  cases Keyword.ofName? word <;> exact fun h => by cases h

namespace Spells

variable {piece rest : List Char} {l : Lexeme}

theorem exists_cons (h : Spells piece l rest) :
    ∃ c taken, piece = c :: taken ∧ isBlank c = false := by
  cases h with
  | stringLiteral h => exact ⟨_, _, rfl, by decide⟩
  | charLiteral h => exact ⟨_, _, rfl, by decide⟩
  | number hc h =>
      refine ⟨_, _, rfl, ?_⟩
      rcases hc with hc | ⟨rfl, -⟩
      · exact isBlank_of_isWordChar (isWordChar_of_isDigit hc)
      · decide
  | word hc hw hr => exact ⟨_, _, rfl, isBlank_of_isWordChar (isWordChar_of_isAlpha hc)⟩
  | mark m =>
      refine ⟨_, _, rfl, ?_⟩
      rcases m with _ | _ | _ | _ | _ | b | b <;> first | decide | (cases b <;> decide)

/-- **A part spells the same lexeme when the text behind it is cut short.** -/
theorem of_append {more : List Char} (h : Spells piece l (rest ++ more)) : Spells piece l rest := by
  generalize hw : rest ++ more = whole at h
  cases h with
  | stringLiteral h => exact .stringLiteral h
  | charLiteral h => exact .charLiteral h
  | number hc h =>
      rw [← hw] at h
      exact .number hc (taken_readNumber_of_append h)
  | word hc hword hr =>
      refine .word hc hword fun d hd => hr d ?_
      rw [← hw, List.head?_append, Option.mem_def.1 hd]
      rfl
  | mark m => exact .mark m

theorem eq_of_mark {m : Mark} (h : Spells piece (.mark m) rest) : piece = [m.char] := by
  generalize hl : Lexeme.mark m = l at h
  cases h with
  | word hc hw hr => exact absurd hl.symm (wordLexeme_ne_mark _ m)
  | mark m' => rw [Lexeme.mark.inj hl]
  | _ => cases hl

theorem ne_finish (h : Spells piece l rest) : l ≠ .finish := by
  cases h with
  | word hc hw hr =>
      unfold wordLexeme
      cases Keyword.ofName? _ <;> exact fun h => by cases h
  | _ => exact fun h => by cases h

end Spells

/-! ### Lexemes of a text -/

/-- A text is read as lexemes, one after the other. -/
inductive Lexes : List Char → List Lexeme → Prop where
  | nil : Lexes [] []
  | blank {c : Char} {cs : List Char} {ls : List Lexeme} (hb : isBlank c = true)
      (h : Lexes cs ls) : Lexes (c :: cs) ls
  | lexeme {piece rest : List Char} {l : Lexeme} {ls : List Lexeme} (hs : Spells piece l rest)
      (h : Lexes rest ls) : Lexes (piece ++ rest) (l :: ls)

section Tokens

variable {offset : Nat} {c : Char} {piece rest cs : List Char} {l : Lexeme} {t : Token}
  {ts : List Token} {ls : List Lexeme}

theorem tokensFrom_nil (offset : Nat) : tokensFrom offset [] = .ok [⟨.finish, ⟨offset, offset⟩⟩] := by
  unfold tokensFrom
  rfl

theorem tokensFrom_blank (hb : isBlank c = true) (offset : Nat) (cs : List Char) :
    tokensFrom offset (c :: cs) = tokensFrom (offset + c.utf8Size) cs := by
  rw [tokensFrom.eq_def]
  exact if_pos hb

theorem tokensFrom_spells (h : Spells piece l rest) (offset : Nat) :
    tokensFrom offset (piece ++ rest) =
      (tokensFrom (offset + byteLength piece) rest).map
        (⟨l, ⟨offset, offset + byteLength piece⟩⟩ :: ·) := by
  obtain ⟨c, taken, rfl, hb⟩ := h.exists_cons
  rw [List.cons_append, tokensFrom.eq_def]
  dsimp only
  rw [if_neg (Bool.eq_false_iff.1 hb), readLexeme_of_spells h]

/-- The cases of reading a text that can be read. -/
theorem tokensFrom_cases (h : tokensFrom offset cs = .ok ts) :
    (cs = [] ∧ ts = [⟨.finish, ⟨offset, offset⟩⟩]) ∨
    (∃ c rest, cs = c :: rest ∧ isBlank c = true ∧
      tokensFrom (offset + c.utf8Size) rest = .ok ts) ∨
    ∃ piece l rest more, cs = piece ++ rest ∧ Spells piece l rest ∧
      tokensFrom (offset + byteLength piece) rest = .ok more ∧
      ts = ⟨l, ⟨offset, offset + byteLength piece⟩⟩ :: more := by
  cases cs with
  | nil =>
      rw [tokensFrom_nil] at h
      exact .inl ⟨rfl, (Except.ok.inj h).symm⟩
  | cons c cs =>
      rw [tokensFrom.eq_def] at h
      dsimp only at h
      split at h
      · next hb => exact .inr (.inl ⟨c, cs, rfl, hb, h⟩)
      · split at h
        · cases h
        · next r hr =>
            obtain ⟨more, hmore, rfl⟩ := map_eq_ok.1 h
            exact .inr (.inr ⟨c :: r.taken, r.value, r.rest, more,
              by rw [List.cons_append, r.joined], spells_of_readLexeme hr, hmore, rfl⟩)

/-- Induction over the tokens of a text that can be read: it ends, or starts with a blank or with a
lexeme. -/
theorem tokensFrom_ok_induct {motive : Nat → List Char → List Token → Prop}
    (nil : ∀ offset, motive offset [] [⟨.finish, ⟨offset, offset⟩⟩])
    (blank : ∀ {offset : Nat} {c : Char} {cs : List Char} {ts : List Token}, isBlank c = true →
      motive (offset + c.utf8Size) cs ts → motive offset (c :: cs) ts)
    (lexeme : ∀ {offset : Nat} {piece : List Char} {l : Lexeme} {rest : List Char}
      {ts : List Token}, Spells piece l rest →
      tokensFrom (offset + byteLength piece) rest = .ok ts →
      motive (offset + byteLength piece) rest ts →
      motive offset (piece ++ rest) (⟨l, ⟨offset, offset + byteLength piece⟩⟩ :: ts))
    (h : tokensFrom offset cs = .ok ts) : motive offset cs ts := by
  induction hn : cs.length using Nat.strongRecOn generalizing offset cs ts with
  | ind n ih =>
      rcases tokensFrom_cases h with ⟨rfl, rfl⟩ | ⟨c, rest, rfl, hb, hrest⟩ |
        ⟨piece, l, rest, more, rfl, hs, hrest, rfl⟩
      · exact nil offset
      · exact blank hb (ih rest.length (by rw [← hn]; exact Nat.lt_succ_self _) hrest rfl)
      · obtain ⟨c, taken, rfl, -⟩ := hs.exists_cons
        have hlt : rest.length < n := by
          rw [← hn, List.cons_append, List.length_cons, List.length_append]
          omega
        exact lexeme hs hrest (ih rest.length hlt hrest rfl)

/-- A text that can be read has lexemes, and a token for each of them before the end. -/
theorem lexes_of_tokensFrom (h : tokensFrom offset cs = .ok ts) :
    ∃ ls, Lexes cs ls ∧ ts.map Token.lexeme = ls ++ [.finish] := by
  refine tokensFrom_ok_induct (motive := fun _ cs ts =>
    ∃ ls, Lexes cs ls ∧ ts.map Token.lexeme = ls ++ [.finish]) (fun _ => ⟨[], .nil, rfl⟩) ?_ ?_ h
  · rintro offset c cs ts hb ⟨ls, hl, hts⟩
    exact ⟨ls, .blank hb hl, hts⟩
  · rintro offset piece l rest ts hs - ⟨ls, hl, hts⟩
    exact ⟨l :: ls, .lexeme hs hl, by rw [List.map_cons, hts, List.cons_append]⟩

theorem Lexes.exists_tokensFrom (h : Lexes cs ls) (offset : Nat) :
    ∃ ts, tokensFrom offset cs = .ok ts ∧ ts.map Token.lexeme = ls ++ [.finish] := by
  induction h generalizing offset with
  | nil => exact ⟨_, tokensFrom_nil offset, rfl⟩
  | @blank c cs ls hb _ ih =>
      rw [tokensFrom_blank hb]
      exact ih _
  | @lexeme piece rest l ls hs _ ih =>
      obtain ⟨ts, hts, hl⟩ := ih (offset + byteLength piece)
      rw [tokensFrom_spells hs, hts]
      exact ⟨_, rfl, by rw [List.map_cons, hl, List.cons_append]⟩

/-- **The lexemes of a text are those that it is read as.** -/
theorem lexemes?_eq_some_iff : lexemes? cs = some ls ↔ Lexes cs ls := by
  unfold lexemes? tokenize
  constructor
  · intro h
    cases hts : tokensFrom 0 cs with
    | error e =>
        rw [hts] at h
        cases h
    | ok ts =>
        obtain ⟨ls', hl, hmap⟩ := lexes_of_tokensFrom hts
        rw [hts, Except.toOption, Option.map_some, hmap, List.dropLast_concat] at h
        rwa [← Option.some.inj h]
  · intro h
    obtain ⟨ts, hts, hmap⟩ := h.exists_tokensFrom 0
    rw [hts, Except.toOption, Option.map_some, hmap, List.dropLast_concat]

theorem Lexes.unique {ls' : List Lexeme} (h : Lexes cs ls) (h' : Lexes cs ls') : ls = ls' :=
  Option.some.inj ((lexemes?_eq_some_iff.2 h).symm.trans (lexemes?_eq_some_iff.2 h'))

end Tokens

end StackHeap.Command
