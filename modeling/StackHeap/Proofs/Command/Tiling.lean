import Mathlib.Data.List.Pairwise
import StackHeap.Proofs.Command.Slices

/-! # Tokens tile their text

The tokens of a text lie side by side (`Tiling`): each covers a range of whole characters, behind
the one before, and nothing but blanks is left between them.  What a range covers is what its token
says, and it ends where the rules for numbers and words make it end.

* **Places.**  A token that is not the end covers a part that spells its lexeme (`exists_piece`), and
  the first token stands behind blanks (`exists_lead`).  What stands in a text, if it is not blank,
  is covered (`exists_covering`).
* **Longest match.**  A number that was read does not go on over what follows it
  (`not_goesOn_of_taken`), the sign of an exponent included. -/

namespace StackHeap.Command

open Text Typing

/-- A position between two characters of a text, or at one of its ends. -/
def IsBoundary (cs : List Char) (n : Nat) : Prop := ∃ a b, cs = a ++ b ∧ n = byteLength a

/-- The number `piece` goes on over `rest`: over a letter, a digit, an underscore or a point, or, if it
ends in `e` or `E`, over a sign with a digit behind it. -/
def NumberGoesOn (piece rest : List Char) : Prop :=
  (∃ c ∈ rest.head?, isWordChar c = true ∨ c = '.') ∨
    (∃ e ∈ piece.getLast?, e = 'e' ∨ e = 'E') ∧
      ∃ s d more, rest = s :: d :: more ∧ (s = '+' ∨ s = '-') ∧ d.isDigit = true

/-- The tokens `ts` tile the text `cs`. -/
structure Tiling (cs : List Char) (ts : List Token) : Prop where
  /-- The end comes last, behind the whole text, and only there. -/
  finish : ∃ front, ts = front ++ [⟨.finish, ⟨byteLength cs, byteLength cs⟩⟩] ∧
    ∀ t ∈ front, t.lexeme ≠ .finish
  nonempty : ∀ t ∈ ts, t.lexeme ≠ .finish → t.span.start < t.span.stop
  boundaries : ∀ t ∈ ts, IsBoundary cs t.span.start ∧ IsBoundary cs t.span.stop
  increasing : ts.Pairwise fun t u => t.span.stop ≤ u.span.start
  /-- Blanks are all that stands before a token, behind the one before it. -/
  gaps : ∀ pre t post, ts = pre ++ t :: post → endOf 0 pre ≤ t.span.start ∧
    ∀ c ∈ slice cs ⟨endOf 0 pre, t.span.start⟩, isBlank c = true
  /-- Every other character belongs to one token. -/
  covered : ∀ a c b, cs = a ++ c :: b → isBlank c = false → ∃! t, t ∈ ts ∧
    t.span.start ≤ byteLength a ∧ byteLength a + c.utf8Size ≤ t.span.stop
  texts : ∀ t ∈ ts, ∀ text, t.lexeme = .number text ∨ t.lexeme = .ident text →
    text.toList = slice cs t.span
  keywords : ∀ t ∈ ts, ∀ k, t.lexeme = .keyword k ↔ slice cs t.span = k.name.toList
  longestNumber : ∀ t ∈ ts, ∀ text, t.lexeme = .number text →
    ¬NumberGoesOn (slice cs t.span) (dropBytes t.span.stop cs)
  longestWord : ∀ t ∈ ts, (∃ name, t.lexeme = .ident name) ∨ (∃ k, t.lexeme = .keyword k) →
    ∀ c ∈ (dropBytes t.span.stop cs).head?, isWordChar c = false

/-! ### Spellings and what follows them -/

section Spellings

variable {piece rest taken : List Char} {c : Char} {text : String} {k : Keyword}

/-- Whether a number goes on is seen at its end. -/
theorem numberGoesOn_cons_cons {d : Char} :
    NumberGoesOn (c :: d :: taken) rest ↔ NumberGoesOn (d :: taken) rest := by
  unfold NumberGoesOn
  rw [List.getLast?_cons_cons]

/-- A sign is no `e`. -/
theorem ne_exponent_of_startsSigned {d : Char} {cs : List Char}
    (h : startsSigned (d :: cs) = true) : (d = 'e' || d = 'E') = false := by
  cases cs with
  | nil => cases h
  | cons d' more =>
      simp only [startsSigned, Bool.and_eq_true, Bool.or_eq_true, decide_eq_true_eq] at h
      rcases h.1 with rfl | rfl <;> rfl

/-- A character from which nothing more is taken. -/
theorem not_goesOn_singleton
    (h : (readNumber ((c = 'e' || c = 'E') && startsSigned rest) rest).taken = []) :
    ¬NumberGoesOn [c] rest := by
  rintro (⟨d, hd, hword⟩ | ⟨⟨e, he, hexp⟩, s, d, more, rfl, hs, hd⟩)
  · cases rest with
    | nil => cases hd
    | cons d' more =>
        obtain rfl : d' = d := Option.some.inj hd
        rw [taken_readNumber] at h
        split at h
        · cases h
        · rw [if_pos (by simpa using hword)] at h
          cases h
  · obtain rfl : c = e := Option.some.inj he
    have hsigned : ((c = 'e' || c = 'E') && startsSigned (s :: d :: more)) = true := by
      simpa [startsSigned, hd] using ⟨hexp, hs⟩
    rw [hsigned, taken_readNumber, if_pos rfl] at h
    cases h

/-- **What a number takes does not go on.** -/
theorem not_goesOn_of_taken
    (h : (readNumber ((c = 'e' || c = 'E') && startsSigned (taken ++ rest)) (taken ++ rest)).taken =
      taken) : ¬NumberGoesOn (c :: taken) rest := by
  induction taken generalizing c with
  | nil => exact not_goesOn_singleton h
  | cons d taken ih =>
      rw [numberGoesOn_cons_cons]
      rw [List.cons_append, taken_readNumber] at h
      split at h
      · next hsigned =>
          -- What is taken is the sign of an exponent.
          refine ih ?_
          rw [ne_exponent_of_startsSigned (Bool.and_eq_true _ _ ▸ hsigned).2, Bool.false_and]
          exact (List.cons.inj h).2
      · split at h
        · exact ih (List.cons.inj h).2
        · cases h

theorem wordLexeme_eq_keyword_iff {word : String} :
    wordLexeme word = .keyword k ↔ word = k.name := by
  constructor
  · intro h
    unfold wordLexeme at h
    cases hw : Keyword.ofName? word with
    | none =>
        rw [hw] at h
        cases h
    | some k' =>
        rw [hw] at h
        obtain rfl : k' = k := Lexeme.keyword.inj h
        unfold Keyword.ofName? at hw
        split at hw <;> cases hw <;> rfl
  · rintro rfl
    rw [wordLexeme, Keyword.ofName?_name]
    rfl

/-- What an identifier or a number says is what it is spelled with. -/
theorem Spells.text_eq {l : Lexeme} (h : Spells piece l rest)
    (hl : l = .number text ∨ l = .ident text) : text.toList = piece := by
  cases h with
  | number hc h =>
      obtain h | h := hl
      · rw [← Lexeme.number.inj h, String.toList_ofList]
      · cases h
  | word hc hw hr =>
      unfold wordLexeme at hl
      cases hk : Keyword.ofName? (String.ofList _) with
      | none =>
          rw [hk] at hl
          obtain h | h := hl
          · cases h
          · rw [← Lexeme.ident.inj h, String.toList_ofList]
      | some k =>
          rw [hk] at hl
          rcases hl with h | h <;> cases h
  | _ => rcases hl with h | h <;> cases h

/-- The keywords are spelled with their names, and nothing else is. -/
theorem Spells.eq_keyword_iff {l : Lexeme} (h : Spells piece l rest) :
    l = .keyword k ↔ piece = k.name.toList := by
  -- The first character of a keyword's name is a letter.
  have hfirst : ∀ {c : Char} {taken : List Char}, c :: taken = k.name.toList →
      c.isAlpha = true := by
    intro c taken he
    cases k <;> (rw [(List.cons.inj he).1]; rfl)
  cases h with
  | stringLiteral h =>
      exact ⟨fun h => (by cases h), fun h => absurd (hfirst (c := '"') h) (by decide)⟩
  | charLiteral h =>
      exact ⟨fun h => (by cases h), fun h => absurd (hfirst (c := '\'') h) (by decide)⟩
  | number hc h =>
      refine ⟨fun h => (by cases h), fun h => ?_⟩
      rcases hc with hc | ⟨rfl, -⟩
      · rw [isDigit_of_isAlpha (.inl (hfirst h))] at hc
        cases hc
      · exact absurd (hfirst (c := '.') h) (by decide)
  | word hc hw hr =>
      rw [wordLexeme_eq_keyword_iff]
      constructor
      · intro h
        rw [← h, String.toList_ofList]
      · intro h
        rw [h, String.ofList_toList]
  | mark m =>
      refine ⟨fun h => (by cases h), fun h => ?_⟩
      have hplain := (mark_char_plain m).2.2.2.2.2
      rw [hfirst h] at hplain
      cases hplain

/-- A number that is spelled does not go on. -/
theorem Spells.not_goesOn (h : Spells piece (.number text) rest) : ¬NumberGoesOn piece rest := by
  generalize hl : Lexeme.number text = l at h
  cases h with
  | @number c taken _ hc h =>
      apply not_goesOn_of_taken
      have hexp : (c = 'e' || c = 'E') = false := by
        rw [Bool.or_eq_false_iff, decide_eq_false_iff_not, decide_eq_false_iff_not]
        rcases hc with hc | ⟨rfl, -⟩
        · exact ⟨Char.ne_of_test hc (by decide), Char.ne_of_test hc (by decide)⟩
        · decide
      rw [hexp, Bool.false_and]
      exact h
  | word hc hw hr =>
      unfold wordLexeme at hl
      cases hk : Keyword.ofName? (String.ofList _) <;> (rw [hk] at hl; cases hl)
  | _ => cases hl

/-- No word character follows a word. -/
theorem Spells.head?_of_word {l : Lexeme} (h : Spells piece l rest)
    (hl : (∃ name, l = .ident name) ∨ (∃ k, l = .keyword k)) :
    ∀ c ∈ rest.head?, isWordChar c = false := by
  cases h with
  | word hc hw hr => exact hr
  | _ => rcases hl with ⟨_, h⟩ | ⟨_, h⟩ <;> cases h

end Spellings

/-! ### Places -/

section Places

variable {offset : Nat} {cs : List Char} {t : Token} {ts : List Token}

/-- The end comes last, and only there. -/
theorem exists_front (h : tokensFrom offset cs = .ok ts) : ∃ front,
    ts = front ++ [⟨.finish, ⟨offset + byteLength cs, offset + byteLength cs⟩⟩] ∧
      ∀ t ∈ front, t.lexeme ≠ .finish := by
  refine tokensFrom_ok_induct (motive := fun offset cs ts => ∃ front,
    ts = front ++ [⟨.finish, ⟨offset + byteLength cs, offset + byteLength cs⟩⟩] ∧
      ∀ t ∈ front, t.lexeme ≠ .finish) ?_ ?_ ?_ h
  · exact fun offset => ⟨[], rfl, fun t ht => absurd ht List.not_mem_nil⟩
  · rintro offset c cs ts - ⟨front, rfl, hfront⟩
    exact ⟨front, by rw [byteLength_cons, Nat.add_assoc], hfront⟩
  · rintro offset piece l rest ts hs - ⟨front, rfl, hfront⟩
    refine ⟨_ :: front, by rw [byteLength_append, ← Nat.add_assoc]; rfl, ?_⟩
    exact List.forall_mem_cons.2 ⟨hs.ne_finish, hfront⟩

/-- A token covers a part that spells its lexeme. -/
theorem exists_piece (h : tokensFrom offset cs = .ok ts) (ht : t ∈ ts) (hl : t.lexeme ≠ .finish) :
    ∃ a piece rest, cs = a ++ (piece ++ rest) ∧ Spells piece t.lexeme rest ∧
      t.span = ⟨offset + byteLength a, offset + byteLength a + byteLength piece⟩ := by
  refine tokensFrom_ok_induct (motive := fun offset cs ts => t ∈ ts →
    ∃ a piece rest, cs = a ++ (piece ++ rest) ∧ Spells piece t.lexeme rest ∧
      t.span = ⟨offset + byteLength a, offset + byteLength a + byteLength piece⟩) ?_ ?_ ?_ h ht
  · intro offset hmem
    rw [List.mem_singleton.1 hmem] at hl
    exact absurd rfl hl
  · intro offset c cs ts _ ih hmem
    obtain ⟨a, piece, rest, rfl, hs, hspan⟩ := ih hmem
    exact ⟨c :: a, piece, rest, rfl, hs, by rw [hspan, byteLength_cons, ← Nat.add_assoc]⟩
  · intro offset piece l rest ts hs _ ih hmem
    rcases List.mem_cons.1 hmem with rfl | hmem
    · exact ⟨[], piece, rest, rfl, hs, rfl⟩
    · obtain ⟨a, piece', rest', rfl, hs', hspan⟩ := ih hmem
      refine ⟨piece ++ a, piece', rest', (List.append_assoc _ _ _).symm, hs', ?_⟩
      rw [hspan, byteLength_append, ← Nat.add_assoc]

/-- The first token stands behind blanks, also if it is the end. -/
theorem exists_lead (h : tokensFrom offset cs = .ok (t :: ts)) : ∃ blanks b,
    cs = blanks ++ b ∧ (∀ c ∈ blanks, isBlank c = true) ∧
      t.span.start = offset + byteLength blanks := by
  generalize hw : t :: ts = whole at h
  refine tokensFrom_ok_induct (motive := fun offset cs whole => t :: ts = whole → ∃ blanks b,
    cs = blanks ++ b ∧ (∀ c ∈ blanks, isBlank c = true) ∧
      t.span.start = offset + byteLength blanks) ?_ ?_ ?_ h hw
  · intro offset he
    rw [(List.cons.inj he).1]
    exact ⟨[], [], rfl, fun c hc => absurd hc List.not_mem_nil, rfl⟩
  · intro offset c cs whole hb ih he
    obtain ⟨blanks, b, rfl, hblanks, hstart⟩ := ih he
    refine ⟨c :: blanks, b, rfl, List.forall_mem_cons.2 ⟨hb, hblanks⟩, ?_⟩
    rw [hstart, byteLength_cons, Nat.add_assoc]
  · intro offset piece l rest whole _ _ _ he
    rw [(List.cons.inj he).1]
    exact ⟨[], piece ++ rest, rfl, fun c hc => absurd hc List.not_mem_nil, rfl⟩

theorem increasing_of_tokensFrom (h : tokensFrom offset cs = .ok ts) :
    (∀ t ∈ ts, offset ≤ t.span.start) ∧ ts.Pairwise fun t u => t.span.stop ≤ u.span.start := by
  refine tokensFrom_ok_induct (motive := fun offset _ ts =>
    (∀ t ∈ ts, offset ≤ t.span.start) ∧ ts.Pairwise fun t u => t.span.stop ≤ u.span.start)
    ?_ ?_ ?_ h
  · intro offset
    refine ⟨fun t ht => ?_, List.pairwise_singleton _ _⟩
    rw [List.mem_singleton.1 ht]
  · rintro offset c cs ts - ⟨hstart, hpair⟩
    exact ⟨fun t ht => Nat.le_of_add_right_le (hstart t ht), hpair⟩
  · rintro offset piece l rest ts - - ⟨hstart, hpair⟩
    refine ⟨List.forall_mem_cons.2 ⟨Nat.le_refl _, fun t ht => ?_⟩, List.pairwise_cons.2 ⟨?_, hpair⟩⟩
    · exact Nat.le_of_add_right_le (hstart t ht)
    · exact hstart

/-- A character that is not blank is covered by a token. -/
theorem exists_covering {a b : List Char} {c : Char} (h : tokensFrom offset cs = .ok ts)
    (he : cs = a ++ c :: b) (hc : isBlank c = false) : ∃ t ∈ ts,
      t.span.start ≤ offset + byteLength a ∧ offset + byteLength a + c.utf8Size ≤ t.span.stop := by
  refine tokensFrom_ok_induct (motive := fun offset cs ts => ∀ a, cs = a ++ c :: b → ∃ t ∈ ts,
    t.span.start ≤ offset + byteLength a ∧ offset + byteLength a + c.utf8Size ≤ t.span.stop)
    ?_ ?_ ?_ h a he
  · intro offset a he
    exact absurd he.symm (List.append_ne_nil_of_right_ne_nil _ (List.cons_ne_nil _ _))
  · intro offset d cs ts hd ih a he
    cases a with
    | nil =>
        rw [(List.cons.inj he).1, hc] at hd
        cases hd
    | cons d' a =>
        obtain ⟨rfl, rfl⟩ := List.cons.inj he
        obtain ⟨t, ht, hcover⟩ := ih a rfl
        exact ⟨t, ht, by rwa [byteLength_cons, ← Nat.add_assoc]⟩
  · intro offset piece l rest ts _ _ ih a he
    -- The character stands behind the lexeme or in it.
    have hbehind : ∀ a', a = piece ++ a' → rest = a' ++ c :: b → ∃ t ∈ ts,
        t.span.start ≤ offset + byteLength a ∧
          offset + byteLength a + c.utf8Size ≤ t.span.stop := by
      rintro a' rfl hrest
      obtain ⟨t, ht, hcover⟩ := ih a' hrest
      exact ⟨t, ht, by rwa [byteLength_append, ← Nat.add_assoc]⟩
    rcases List.append_eq_append_iff.1 he with ⟨a', ha, hrest⟩ | ⟨more, hpiece, hmore⟩
    · obtain ⟨t, ht, hcover⟩ := hbehind a' ha hrest
      exact ⟨t, List.mem_cons_of_mem _ ht, hcover⟩
    · cases more with
      | nil =>
          obtain ⟨t, ht, hcover⟩ := hbehind [] (by simpa using hpiece.symm) hmore.symm
          exact ⟨t, List.mem_cons_of_mem _ ht, hcover⟩
      | cons d more =>
          obtain ⟨rfl, -⟩ := List.cons.inj hmore
          refine ⟨_, List.mem_cons_self, Nat.le_add_right _ _, ?_⟩
          simp only [hpiece, byteLength_append, byteLength_cons]
          omega

end Places

/-! ### Tilings -/

section Tilings

variable {cs : List Char} {t u : Token} {ts : List Token}

/-- A token other than the end covers its part of the text, and the part behind follows it. -/
theorem exists_spelling (h : tokenize cs = .ok ts) (ht : t ∈ ts) (hl : t.lexeme ≠ .finish) :
    Spells (slice cs t.span) t.lexeme (dropBytes t.span.stop cs) ∧ t.span.start < t.span.stop ∧
      IsBoundary cs t.span.start ∧ IsBoundary cs t.span.stop := by
  obtain ⟨a, piece, rest, rfl, hs, hspan⟩ := exists_piece h ht hl
  rw [Nat.zero_add] at hspan
  have hslice : slice (a ++ (piece ++ rest)) t.span = piece := by
    rw [hspan, ← List.append_assoc, slice_append]
  have hdrop : dropBytes t.span.stop (a ++ (piece ++ rest)) = rest := by
    rw [hspan, ← byteLength_append, ← List.append_assoc, dropBytes_byteLength]
  refine ⟨by rwa [hslice, hdrop], ?_, ⟨a, piece ++ rest, rfl, by rw [hspan]⟩,
    ⟨a ++ piece, rest, (List.append_assoc _ _ _).symm, by rw [hspan, byteLength_append]⟩⟩
  obtain ⟨c, taken, rfl, -⟩ := hs.exists_cons
  rw [hspan, byteLength_cons]
  exact Nat.lt_add_of_pos_right (Nat.add_pos_left c.utf8Size_pos _)

/-- No byte belongs to two tokens. -/
theorem eq_of_overlap (h : tokenize cs = .ok ts) (ht : t ∈ ts) (hu : u ∈ ts) {n : Nat}
    (htn : t.span.start ≤ n ∧ n < t.span.stop) (hun : u.span.start ≤ n ∧ n < u.span.stop) :
    t = u := by
  by_contra hne
  have hsymm : Std.Symm fun t u : Token =>
      t.span.stop ≤ u.span.start ∨ u.span.stop ≤ t.span.start := ⟨fun _ _ => Or.symm⟩
  have hpair : ts.Pairwise fun t u => t.span.stop ≤ u.span.start ∨ u.span.stop ≤ t.span.start :=
    (increasing_of_tokensFrom h).2.imp .inl
  rcases hpair.forall ht hu hne with h | h <;> omega

/-- Between two tokens that follow each other, and before the first, there are blanks. -/
theorem blank_of_gap {pre post : List Token} (h : tokenize cs = .ok (pre ++ t :: post)) :
    endOf 0 pre ≤ t.span.start ∧
      ∀ c ∈ slice cs ⟨endOf 0 pre, t.span.start⟩, isBlank c = true := by
  obtain ⟨a, b, rfl, hend, hb, -⟩ := exists_cut h (List.cons_ne_nil _ _)
  obtain ⟨blanks, rest, rfl, hblanks, hstart⟩ := exists_lead hb
  rw [Nat.zero_add] at hend hstart
  rw [hend, hstart, ← List.append_assoc, slice_append]
  exact ⟨Nat.le_add_right _ _, hblanks⟩

/-- **The tokens of a text tile it.** -/
theorem tokens_tile (h : tokenize cs = .ok ts) : Tiling cs ts := by
  obtain ⟨front, hfront, hne⟩ := exists_front h
  rw [Nat.zero_add] at hfront
  -- The end covers nothing, and every other token is a spelling.
  have hfinish : ∀ t ∈ ts, t.lexeme = .finish → t.span = ⟨byteLength cs, byteLength cs⟩ := by
    intro t ht hl
    rw [hfront] at ht
    rcases List.mem_append.1 ht with ht | ht
    · exact absurd hl (hne t ht)
    · rw [List.mem_singleton.1 ht]
  refine {
    finish := ⟨front, hfront, hne⟩
    nonempty := fun t ht hl => (exists_spelling h ht hl).2.1
    boundaries := fun t ht => ?_
    increasing := (increasing_of_tokensFrom h).2
    gaps := fun pre t post he => blank_of_gap (by rw [h, he])
    covered := fun a c b he hc => ?_
    texts := fun t ht text hl => ?_
    keywords := fun t ht k => ?_
    longestNumber := fun t ht text hl => ?_
    longestWord := fun t ht hl => ?_ }
  · by_cases hl : t.lexeme = .finish
    · rw [hfinish t ht hl]
      exact ⟨⟨cs, [], (List.append_nil _).symm, rfl⟩, cs, [], (List.append_nil _).symm, rfl⟩
    · exact (exists_spelling h ht hl).2.2
  · obtain ⟨t, ht, hcover⟩ := exists_covering h he hc
    rw [Nat.zero_add] at hcover
    have hpos := c.utf8Size_pos
    exact ⟨t, ⟨ht, hcover⟩, fun u ⟨hu, hcover'⟩ =>
      eq_of_overlap h hu ht ⟨hcover'.1, by omega⟩ ⟨hcover.1, by omega⟩⟩
  · have hne : t.lexeme ≠ .finish := by
      rintro hf
      rcases hl with hl | hl <;> (rw [hf] at hl; cases hl)
    exact (exists_spelling h ht hne).1.text_eq hl
  · by_cases hl : t.lexeme = .finish
    · have hslice : slice cs t.span = [] := by
        rw [hfinish t ht hl, slice, Nat.sub_self, takeBytes]
      rw [hl, hslice]
      refine ⟨fun h => (by cases h), fun h => ?_⟩
      cases k <;> cases h
    · exact (exists_spelling h ht hl).1.eq_keyword_iff
  · have hne : t.lexeme ≠ .finish := by
      rw [hl]
      exact fun h => by cases h
    have hs := (exists_spelling h ht hne).1
    rw [hl] at hs
    exact hs.not_goesOn
  · have hne : t.lexeme ≠ .finish := by
      rintro hf
      rcases hl with ⟨_, hl⟩ | ⟨_, hl⟩ <;> (rw [hf] at hl; cases hl)
    exact (exists_spelling h ht hne).1.head?_of_word hl

/-- Wide blanks, a name that starts with a keyword, an exponent without a sign of its own and one with
a sign, and quotes inside quotes. -/
theorem tokens_tile_mixed :
    Tiling "\u2003newer\u3000= [.5e+, \"é\\\"'\", 1.5e-3]; new".toList
      [⟨.ident "newer", ⟨3, 8⟩⟩, ⟨.mark .equals, ⟨11, 12⟩⟩, ⟨.mark (.opening .square), ⟨13, 14⟩⟩,
        ⟨.number ".5e", ⟨14, 17⟩⟩, ⟨.mark .plus, ⟨17, 18⟩⟩, ⟨.mark .comma, ⟨18, 19⟩⟩,
        ⟨.stringLiteral "é\"'", ⟨20, 27⟩⟩, ⟨.mark .comma, ⟨27, 28⟩⟩, ⟨.number "1.5e-3", ⟨29, 35⟩⟩,
        ⟨.mark (.closing .square), ⟨35, 36⟩⟩, ⟨.mark .semicolon, ⟨36, 37⟩⟩,
        ⟨.keyword .new, ⟨38, 41⟩⟩, ⟨.finish, ⟨41, 41⟩⟩] :=
  tokens_tile (by decide +kernel)

end Tilings

end StackHeap.Command
