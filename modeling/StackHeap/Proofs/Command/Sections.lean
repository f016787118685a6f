import StackHeap.Proofs.Command.Tiling

/-! # Sections of a text

A section of a text from one of its tokens to another has the tokens between them, and the blanks
around it may be cut anywhere (`tokenize_section`).

* **Places.**  Where a text starts moves its tokens and changes nothing else (`tokensFrom_shift`), so
  a part of a text is read as it is read alone (`exists_tokenize`).
* **Cuts.**  In front of a token the text is read on from there; behind it the reading stops there
  (`exists_cut`), because no lexeme needs to see what follows it (`Spells.of_append`). -/

namespace StackHeap.Command

open Text Typing

/-- The token in a text that starts `k` bytes further on. -/
def Token.shift (k : Nat) (t : Token) : Token := ⟨t.lexeme, ⟨k + t.span.start, k + t.span.stop⟩⟩

section Places

variable {offset k : Nat} {cs : List Char} {ts : List Token}

theorem tokensFrom_shift (k : Nat) (h : tokensFrom offset cs = .ok ts) :
    tokensFrom (k + offset) cs = .ok (ts.map (Token.shift k)) := by
  refine tokensFrom_ok_induct (motive := fun offset cs ts =>
    tokensFrom (k + offset) cs = .ok (ts.map (Token.shift k))) ?_ ?_ ?_ h
  · exact fun offset => tokensFrom_nil _
  · intro offset c cs ts hb ih
    rw [tokensFrom_blank hb, Nat.add_assoc, ih]
  · intro offset piece l rest ts hs _ ih
    rw [tokensFrom_spells hs, Nat.add_assoc, ih]
    rfl

/-- A part of a text is read as it is read alone. -/
theorem exists_tokenize (h : tokensFrom k cs = .ok ts) :
    ∃ alone, tokenize cs = .ok alone ∧ ts = alone.map (Token.shift k) := by
  obtain ⟨ls, hl, -⟩ := lexes_of_tokensFrom h
  obtain ⟨alone, halone, -⟩ := hl.exists_tokensFrom 0
  refine ⟨alone, halone, ?_⟩
  have hshift := tokensFrom_shift k halone
  rw [Nat.add_zero, h] at hshift
  exact Except.ok.inj hshift

/-- A part of a text is read as it is read alone, to its end. -/
theorem exists_tokenize_concat {front : List Token} {last : Span}
    (h : tokensFrom k cs = .ok (front ++ [⟨.finish, last⟩])) : ∃ alone,
      tokenize cs = .ok (alone ++ [⟨.finish, ⟨byteLength cs, byteLength cs⟩⟩]) ∧
        front = alone.map (Token.shift k) := by
  obtain ⟨whole, hwhole, hmap⟩ := exists_tokenize h
  obtain ⟨alone, rfl, -⟩ := exists_front hwhole
  rw [Nat.zero_add] at hwhole
  rw [List.map_append] at hmap
  exact ⟨alone, hwhole, (List.append_inj' hmap rfl).1⟩

end Places

/-! ### Cuts -/

theorem eq_nil_of_byteLength_eq_zero {cs : List Char} (h : byteLength cs = 0) : cs = [] := by
  cases cs with
  | nil => rfl
  | cons c cs =>
      have hpos := c.utf8Size_pos
      rw [byteLength_cons] at h
      omega

/-- Of two cuts of a text, the one further on cuts the back part of the other. -/
theorem exists_between {a b x y : List Char} (h : a ++ b = x ++ y)
    (hle : byteLength a ≤ byteLength x) : ∃ m, x = a ++ m ∧ b = m ++ y := by
  rcases List.append_eq_append_iff.1 h with ⟨m, rfl, rfl⟩ | ⟨m, rfl, rfl⟩
  · exact ⟨m, rfl, rfl⟩
  · rw [byteLength_append] at hle
    have hm : byteLength m = 0 := by omega
    obtain rfl := eq_nil_of_byteLength_eq_zero hm
    exact ⟨[], by simp, rfl⟩

section Sections

variable {offset start stop : Nat} {cs : List Char} {t : Token} {ts pre more post : List Token}
  {first next : Token}

/-- A text can be cut in the blanks before its first token. -/
theorem exists_cut_lead (h : tokensFrom offset cs = .ok (t :: ts)) {x y : List Char}
    (he : cs = x ++ y) (hx : offset + byteLength x ≤ t.span.start) :
    (∀ c ∈ x, isBlank c = true) ∧ tokensFrom (offset + byteLength x) y = .ok (t :: ts) := by
  obtain ⟨blanks, b, rfl, hblanks, hstart⟩ := exists_lead h
  obtain ⟨m, rfl, rfl⟩ := exists_between he.symm (by omega)
  have hx : ∀ c ∈ x, isBlank c = true := fun c hc => hblanks c (List.mem_append_left _ hc)
  refine ⟨hx, ?_⟩
  rwa [List.append_assoc, tokensFrom_blanks hx] at h

/-- **A section of a text has the tokens of the text that lie in it.**  It starts behind the token
before them and ends in front of the token after them. -/
theorem tokenize_section (h : tokenize cs = .ok (pre ++ (first :: more) ++ next :: post))
    (hstart : IsBoundary cs start) (hstop : IsBoundary cs stop)
    (hlead : endOf 0 pre ≤ start ∧ start ≤ first.span.start)
    (htrail : endOf first.span.stop more ≤ stop ∧ stop ≤ next.span.start) :
    ∃ ts, tokenize (slice cs ⟨start, stop⟩) =
        .ok (ts ++ [⟨.finish, ⟨stop - start, stop - start⟩⟩]) ∧
      first :: more = ts.map (Token.shift start) := by
  rw [List.append_assoc] at h
  obtain ⟨x, y, hx, rfl⟩ := hstart
  obtain ⟨x', y', hx', rfl⟩ := hstop
  -- The section starts in the blanks behind the tokens before it.
  obtain ⟨a, b, rfl, hend, hb, -⟩ := exists_cut h (List.append_ne_nil_of_right_ne_nil _ (by simp))
  rw [Nat.zero_add] at hend hb
  obtain ⟨lead, rfl, rfl⟩ := exists_between hx (by omega)
  rw [byteLength_append] at hlead
  have hy : tokensFrom (byteLength a + byteLength lead) y = .ok (first :: more ++ next :: post) :=
    (exists_cut_lead hb rfl hlead.2).2
  rw [← byteLength_append] at hy
  -- It ends in the blanks behind its own tokens.
  obtain ⟨a', b', rfl, hend', hb', hfront⟩ := exists_cut hy (List.cons_ne_nil _ _)
  rw [endOf, ← byteLength_append] at hend'
  rw [← byteLength_append] at hb'
  rw [← List.append_assoc, ← List.append_assoc] at hx'
  obtain ⟨trail, rfl, rfl⟩ := exists_between hx' (by omega)
  rw [byteLength_append] at htrail
  obtain ⟨hblanks, -⟩ := exists_cut_lead hb' rfl htrail.2
  obtain ⟨last, hlast⟩ := hfront trail y' rfl hblanks
  obtain ⟨ts, hts, hmap⟩ := exists_tokenize_concat hlast
  have hslice := slice_append (a ++ lead) (a' ++ trail) y'
  rw [← byteLength_append] at hslice
  have hwidth : byteLength (a ++ lead ++ (a' ++ trail)) - byteLength (a ++ lead) =
      byteLength (a' ++ trail) := by
    rw [byteLength_append (a ++ lead), Nat.add_sub_cancel_left]
  simp only [List.append_assoc] at hslice hwidth ⊢
  exact ⟨ts, by rw [hslice, hwidth, hts], by rw [hmap]⟩

/-- A section that ends between an exponent without a sign of its own and a sign. -/
theorem tokenize_section_exponent :
    ∃ ts, tokenize (slice "a  = [ \"é\" .5e \u2003+ 1]".toList ⟨6, 16⟩) =
        .ok (ts ++ [⟨.finish, ⟨10, 10⟩⟩]) ∧
      [⟨.stringLiteral "é", ⟨7, 11⟩⟩, ⟨.number ".5e", ⟨12, 15⟩⟩] = ts.map (Token.shift 6) := by
  have h : tokenize "a  = [ \"é\" .5e \u2003+ 1]".toList =
      .ok ([⟨.ident "a", ⟨0, 1⟩⟩, ⟨.mark .equals, ⟨3, 4⟩⟩, ⟨.mark (.opening .square), ⟨5, 6⟩⟩] ++
        [⟨.stringLiteral "é", ⟨7, 11⟩⟩, ⟨.number ".5e", ⟨12, 15⟩⟩] ++ ⟨.mark .plus, ⟨19, 20⟩⟩ ::
        [⟨.number "1", ⟨21, 22⟩⟩, ⟨.mark (.closing .square), ⟨22, 23⟩⟩, ⟨.finish, ⟨23, 23⟩⟩]) := by
    decide +kernel
  exact tokenize_section h ⟨"a  = [".toList, _, rfl, rfl⟩ ⟨"a  = [ \"é\" .5e ".toList, _, rfl, rfl⟩
    (by decide) (by decide)

end Sections

end StackHeap.Command
