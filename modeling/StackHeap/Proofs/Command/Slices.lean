import Mathlib.Data.List.TakeWhile
import StackHeap.Command.Statement
import StackHeap.Proofs.Command.Lexing

/-! # Parts of a text and their lexemes

Values, attributes and elements are handed on as parts of the line, which are trimmed and read
again.  Nothing is lost or gained on the way.

* **Ends.**  A character that can stand in no number and no word ends what stands before it
  (`Lexes.append_cons`).
* **Blanks** at either end of a text add no lexeme (`lexes_trim_iff`), and the last character of a
  trimmed text is a semicolon exactly if its last lexeme is (`Lexes.terminated_eq_ok_iff`).
* **Slices.**  A text can be cut behind any token (`exists_cut`), so the range from one token to
  another has the lexemes of the tokens between (`lexes_slice`), and so has the range between the
  tokens that enclose them (`lexes_between`). -/

namespace StackHeap.Command

open Text Typing

variable {cs more piece rest blanks : List Char} {l : Lexeme} {ls ks : List Lexeme}

/-! ### What ends a lexeme -/

section Ends

variable {d : Char} (hd : isNumberChar d = false)
include hd

theorem startsSigned_append_cons (cs more : List Char) :
    startsSigned (cs ++ d :: more) = startsSigned cs := by
  simp only [isNumberChar, isWordChar, Char.isAlphanum, Bool.or_eq_false_iff,
    decide_eq_false_iff_not] at hd
  rcases cs with - | ⟨s, - | ⟨t, cs⟩⟩
  · cases more <;> simp [startsSigned, hd]
  · simp [startsSigned, hd]
  · rfl

/-- A number ends there, unless the sign of an exponent is due. -/
theorem taken_readNumber_append_cons {signed : Bool} (hs : signed = true → cs ≠ [])
    (more : List Char) :
    (readNumber signed (cs ++ d :: more)).taken = (readNumber signed cs).taken := by
  induction cs generalizing signed with
  | nil =>
      cases signed with
      | true => exact absurd rfl (hs rfl)
      | false =>
          simp only [isNumberChar, Bool.or_eq_false_iff] at hd
          rw [List.nil_append, taken_readNumber, hd.1.1.1, hd.1.1.2]
          rfl
  | cons c cs ih =>
      have hbare := @ih false fun h => absurd h Bool.false_ne_true
      have hexponent : ∀ e : Bool, (e && startsSigned cs) = true → cs ≠ [] := by
        rintro e h rfl
        cases e <;> cases h
      rw [List.cons_append, taken_readNumber, taken_readNumber, hbare,
        startsSigned_append_cons hd, ih (hexponent _)]

/-- What spells a lexeme spells it with such a character behind the rest. -/
theorem Spells.append_cons (h : Spells piece l rest) (more : List Char) :
    Spells piece l (rest ++ d :: more) := by
  cases h with
  | stringLiteral h => exact .stringLiteral h
  | charLiteral h => exact .charLiteral h
  | number hc h =>
      refine .number hc ?_
      rw [← List.append_assoc,
        taken_readNumber_append_cons hd fun h => absurd h Bool.false_ne_true]
      exact h
  | word hc hw hr =>
      refine .word hc hw ?_
      cases rest with
      | nil =>
          intro e he
          simp only [isNumberChar, Bool.or_eq_false_iff] at hd
          rw [← Option.some.inj he]
          exact hd.1.1.1
      | cons e rest => exact hr
  | mark m => exact .mark m

/-- **A character outside numbers and words ends what stands before it.** -/
theorem Lexes.append_cons (h : Lexes cs ls) (hr : Lexes (d :: more) ks) :
    Lexes (cs ++ d :: more) (ls ++ ks) := by
  induction h with
  | nil => exact hr
  | blank hb _ ih => exact .blank hb ih
  | lexeme hs _ ih =>
      rw [List.append_assoc]
      exact .lexeme (hs.append_cons hd more) ih

end Ends

/-! ### Blanks -/

theorem lexes_blanks_append (hb : ∀ c ∈ blanks, isBlank c = true) (h : Lexes cs ls) :
    Lexes (blanks ++ cs) ls := by
  induction blanks with
  | nil => exact h
  | cons c blanks ih =>
      exact .blank (hb c List.mem_cons_self) (ih fun d hd => hb d (List.mem_cons_of_mem _ hd))

theorem lexes_blanks (hb : ∀ c ∈ blanks, isBlank c = true) : Lexes blanks [] := by
  have h := lexes_blanks_append hb .nil
  rwa [List.append_nil] at h

theorem isBlank_of_lexes_nil (h : Lexes cs []) : ∀ c ∈ cs, isBlank c = true := by
  generalize hl : ([] : List Lexeme) = ls at h
  induction h with
  | nil => exact fun c hc => absurd hc List.not_mem_nil
  | blank hb _ ih =>
      intro c hc
      rcases List.mem_cons.1 hc with rfl | hc
      · exact hb
      · exact ih hl c hc
  | lexeme hs _ _ => cases hl

theorem Quotes.exists_concat {quote : Char} {body text : List Char} (h : Quotes quote body text) :
    ∃ front, body = front ++ [quote] := by
  induction h with
  | close => exact ⟨[], rfl⟩
  | escape hd _ ih =>
      obtain ⟨front, rfl⟩ := ih
      exact ⟨_ :: _ :: front, rfl⟩
  | plain hb hq _ ih =>
      obtain ⟨front, rfl⟩ := ih
      exact ⟨_ :: front, rfl⟩

/-- The last character of a text whose characters all pass a test. -/
theorem exists_concat_of_forall {p : Char → Bool} {c : Char} {taken : List Char}
    (h : ∀ d ∈ c :: taken, p d = true) : ∃ front d, c :: taken = front ++ [d] ∧ p d = true := by
  refine ⟨_, _, (List.dropLast_append_getLast (List.cons_ne_nil c taken)).symm, ?_⟩
  exact h _ (List.getLast_mem _)

/-- A lexeme ends in a character that is not blank, and in a semicolon only if it is one. -/
theorem Spells.exists_concat (h : Spells piece l rest) :
    ∃ front c, piece = front ++ [c] ∧ isBlank c = false ∧ (c = ';' ↔ l = .mark .semicolon) := by
  -- A last character that is no semicolon, of a lexeme that is none.
  have other : ∀ {p : Char → Bool} {c : Char} {taken : List Char} {l : Lexeme},
      (∀ d, p d = true → isBlank d = false) → p ';' = false → l ≠ .mark .semicolon →
      (∀ d ∈ c :: taken, p d = true) →
      ∃ front d, c :: taken = front ++ [d] ∧ isBlank d = false ∧ (d = ';' ↔ l = .mark .semicolon) := by
    intro p c taken l hblank hsemi hl hall
    obtain ⟨front, d, he, hd⟩ := exists_concat_of_forall hall
    exact ⟨front, d, he, hblank d hd,
      ⟨fun h => absurd h (Char.ne_of_test hd hsemi), fun h => absurd h hl⟩⟩
  cases h with
  | stringLiteral h =>
      obtain ⟨front, rfl⟩ := h.exists_concat
      exact ⟨_ :: front, '"', rfl, by decide, by simp⟩
  | charLiteral h =>
      obtain ⟨front, rfl⟩ := h.exists_concat
      exact ⟨_ :: front, '\'', rfl, by decide, by simp⟩
  | number hc h =>
      exact other (fun d => isBlank_of_isNumberChar) (by decide) (fun h => by cases h)
        (isNumberChar_of_spells hc h)
  | word hc hw hr =>
      exact other (fun d => isBlank_of_isWordChar) (by decide) (wordLexeme_ne_mark _ _)
        (isWordChar_of_spells hc hw)
  | mark m =>
      refine ⟨[], m.char, rfl, ?_, ?_⟩
      · obtain ⟨c, taken, he, hb⟩ := (@Spells.mark rest m).exists_cons
        rw [(List.cons.inj he).1]
        exact hb
      · rcases m with _ | _ | _ | _ | _ | b | b <;> first | decide | (cases b <;> decide)

/-- Blanks at the end of a text add no lexeme. -/
theorem Lexes.of_append_blanks (h : Lexes (cs ++ blanks) ls)
    (hb : ∀ c ∈ blanks, isBlank c = true) : Lexes cs ls := by
  generalize hw : cs ++ blanks = whole at h
  induction h generalizing cs with
  | nil =>
      obtain ⟨rfl, -⟩ := List.append_eq_nil_iff.1 hw
      exact .nil
  | @blank c whole ls hc hrest ih =>
      cases cs with
      | nil =>
          have hall : Lexes blanks ls := by
            rw [List.nil_append] at hw
            rw [hw]
            exact .blank hc hrest
          rw [hall.unique (lexes_blanks hb)]
          exact .nil
      | cons d cs =>
          obtain ⟨rfl, hrest⟩ := List.cons.inj hw
          exact .blank hc (ih hrest)
  | @lexeme piece rest l ls hs _ ih =>
      rcases List.append_eq_append_iff.1 hw with ⟨mid, hp, hr⟩ | ⟨mid, hc, hr⟩
      · -- The lexeme would end among the blanks.
        cases mid with
        | nil =>
            rw [List.append_nil] at hp
            rw [List.nil_append] at hr
            subst hp
            have hrest := @ih [] (by rw [List.nil_append]; exact hr)
            have hspell : Spells piece l ([] ++ rest) := hs
            have := Lexes.lexeme hspell.of_append hrest
            rwa [List.append_nil] at this
        | cons d mid =>
            obtain ⟨front, c, he, hc, -⟩ := hs.exists_concat
            have hmem : c ∈ blanks := by
              have hlast : (d :: mid).getLast? = some c := by
                rw [← List.getLast?_append_of_ne_nil cs (List.cons_ne_nil d mid), ← hp, he,
                  List.getLast?_concat]
              rw [hr]
              exact List.mem_append_left _ (List.mem_of_getLast? hlast)
            rw [hb c hmem] at hc
            cases hc
      · subst hc
        have hrest := ih hr.symm
        rw [hr] at hs
        exact .lexeme hs.of_append hrest

/-- Blanks at the start of a text add no lexeme. -/
theorem Lexes.of_blanks_append (h : Lexes (blanks ++ cs) ls)
    (hb : ∀ c ∈ blanks, isBlank c = true) : Lexes cs ls := by
  induction blanks with
  | nil => exact h
  | cons c blanks ih =>
      refine ih ?_ fun d hd => hb d (List.mem_cons_of_mem _ hd)
      generalize hw : c :: blanks ++ cs = whole at h
      cases h with
      | nil => cases hw
      | blank hc h =>
          obtain ⟨-, rfl⟩ := List.cons.inj hw
          exact h
      | lexeme hs h =>
          obtain ⟨d, taken, rfl, hd⟩ := hs.exists_cons
          rw [← (List.cons.inj hw).1, hb c List.mem_cons_self] at hd
          cases hd

theorem Lexes.append_blanks (h : Lexes cs ls) (hb : ∀ c ∈ blanks, isBlank c = true) :
    Lexes (cs ++ blanks) ls := by
  cases blanks with
  | nil => rwa [List.append_nil]
  | cons d blanks =>
      have hd : isNumberChar d = false := by
        rw [← Bool.not_eq_true]
        intro hn
        have := isBlank_of_isNumberChar hn
        rw [hb d List.mem_cons_self] at this
        cases this
      have hall := h.append_cons hd (lexes_blanks hb)
      rwa [List.append_nil] at hall

/-! ### Trimming -/

theorem exists_trimStart (cs : List Char) :
    ∃ blanks, cs = blanks ++ trimStart cs ∧ ∀ c ∈ blanks, isBlank c = true :=
  ⟨cs.takeWhile isBlank, List.takeWhile_append_dropWhile.symm,
    List.all_eq_true.1 List.all_takeWhile⟩

theorem exists_trimEnd (cs : List Char) :
    ∃ blanks, cs = trimEnd cs ++ blanks ∧ ∀ c ∈ blanks, isBlank c = true := by
  obtain ⟨blanks, he, hb⟩ := exists_trimStart cs.reverse
  refine ⟨blanks.reverse, ?_, fun c hc => hb c (List.mem_reverse.1 hc)⟩
  rw [trimEnd, ← List.reverse_append, ← trimStart, ← he, List.reverse_reverse]

/-- **A trimmed text has the same lexemes.** -/
theorem lexes_trim_iff : Lexes (trim cs) ls ↔ Lexes cs ls := by
  obtain ⟨front, hf, hfb⟩ := exists_trimStart cs
  obtain ⟨back, hb, hbb⟩ := exists_trimEnd (trimStart cs)
  constructor
  · intro h
    rw [hf, hb]
    exact lexes_blanks_append hfb (h.append_blanks hbb)
  · intro h
    rw [hf] at h
    have hstart := h.of_blanks_append hfb
    rw [hb] at hstart
    exact hstart.of_append_blanks hbb

theorem Lexes.trim (h : Lexes cs ls) : Lexes (trim cs) ls := lexes_trim_iff.2 h

theorem Lexes.trim_eq_nil_iff (h : Lexes cs ls) : Text.trim cs = [] ↔ ls = [] := by
  constructor
  · intro ht
    have hl := h.trim
    rw [ht] at hl
    exact hl.unique .nil
  · rintro rfl
    have hb := isBlank_of_lexes_nil h
    have hs : trimStart cs = [] := List.dropWhile_eq_nil_iff.2 hb
    rw [Text.trim, hs]
    rfl

theorem isBlank_of_mem_getLast?_trim {c : Char} (h : c ∈ (Text.trim cs).getLast?) :
    isBlank c = false := by
  rw [Text.trim, trimEnd, List.getLast?_reverse] at h
  have hstop := List.head?_dropWhile_not isBlank (trimStart cs).reverse
  rw [Option.mem_def.1 h] at hstop
  exact hstop

/-- A text that does not end in a blank ends in a semicolon if its last lexeme is one. -/
theorem Lexes.getLast?_eq_semicolon_iff (h : Lexes cs ls)
    (hb : ∀ c ∈ cs.getLast?, isBlank c = false) :
    cs.getLast? = some ';' ↔ ls.getLast? = some (.mark .semicolon) := by
  induction h with
  | nil => simp
  | @blank c cs ls hc hrest ih =>
      cases cs with
      | nil =>
          have hlast := hb c rfl
          rw [hc] at hlast
          cases hlast
      | cons d cs =>
          rw [List.getLast?_cons_cons] at hb ⊢
          exact ih hb
  | @lexeme piece rest l ls hs hrest ih =>
      cases rest with
      | nil =>
          obtain rfl := hrest.unique .nil
          obtain ⟨front, c, rfl, -, hc⟩ := hs.exists_concat
          rw [List.append_nil, List.getLast?_concat, List.getLast?_singleton, Option.some.injEq,
            Option.some.injEq]
          exact hc
      | cons d rest =>
          rw [List.getLast?_append_of_ne_nil _ (List.cons_ne_nil d rest)] at hb ⊢
          cases ls with
          | nil =>
              have hblank := isBlank_of_lexes_nil hrest
              have hlast := List.getLast_mem (List.cons_ne_nil d rest)
              have := hb _ (List.getLast?_eq_some_getLast (List.cons_ne_nil d rest))
              rw [hblank _ hlast] at this
              cases this
          | cons k ls =>
              rw [List.getLast?_cons_cons]
              exact ih hb

/-- A line is terminated exactly if its last lexeme is a semicolon. -/
theorem Lexes.terminated_eq_ok_iff (h : Lexes cs ls) :
    terminated cs = .ok () ↔ ls.getLast? = some (.mark .semicolon) := by
  have hlast := h.trim.getLast?_eq_semicolon_iff fun c hc => isBlank_of_mem_getLast?_trim hc
  unfold terminated
  dsimp only
  split
  · next hn =>
      rw [h.trim_eq_nil_iff.1 hn]
      simp
  · split
    · next hc => exact ⟨fun _ => hlast.1 hc, fun _ => rfl⟩
    · next hc =>
        exact ⟨fun h => (by cases h), fun h => absurd (hlast.2 h) hc⟩

/-! ### Cutting between tokens -/

section Cut

variable {offset : Nat} {t : Token} {ts pre mid post : List Token}

/-- Where the last of some tokens stops; `stop` if there are none. -/
def endOf (stop : Nat) : List Token → Nat
  | [] => stop
  | t :: ts => endOf t.span.stop ts

theorem spanOf?_cons (t : Token) (ts : List Token) :
    spanOf? (t :: ts) = some ⟨t.span.start, endOf t.span.stop ts⟩ := by
  have hlast : ∀ (t : Token) (ts : List Token), ∃ last, (t :: ts).getLast? = some last ∧
      last.span.stop = endOf t.span.stop ts := by
    intro t ts
    induction ts generalizing t with
    | nil => exact ⟨t, rfl, rfl⟩
    | cons u ts ih =>
        obtain ⟨last, hl, he⟩ := ih u
        exact ⟨last, by rw [List.getLast?_cons_cons, hl], he⟩
  obtain ⟨last, hl, he⟩ := hlast t ts
  simp only [spanOf?, List.head?_cons, hl, bind, Option.bind, ← he]
  rfl

/-- The first token of a text stands behind blanks. -/
theorem exists_first (h : tokensFrom offset cs = .ok (t :: ts)) (hts : ts ≠ []) :
    ∃ blanks piece rest, cs = blanks ++ (piece ++ rest) ∧ (∀ c ∈ blanks, isBlank c = true) ∧
      Spells piece t.lexeme rest ∧
      t.span = ⟨offset + byteLength blanks, offset + byteLength blanks + byteLength piece⟩ ∧
      tokensFrom t.span.stop rest = .ok ts := by
  generalize hw : t :: ts = whole at h
  refine tokensFrom_ok_induct (motive := fun offset cs whole => t :: ts = whole →
    ∃ blanks piece rest, cs = blanks ++ (piece ++ rest) ∧ (∀ c ∈ blanks, isBlank c = true) ∧
      Spells piece t.lexeme rest ∧
      t.span = ⟨offset + byteLength blanks, offset + byteLength blanks + byteLength piece⟩ ∧
      tokensFrom t.span.stop rest = .ok ts) ?_ ?_ ?_ h hw
  · intro offset he
    exact absurd (List.cons.inj he).2 hts
  · intro offset c cs whole hb ih he
    obtain ⟨blanks, piece, rest, rfl, hblanks, hs, hspan, hmore⟩ := ih he
    refine ⟨c :: blanks, piece, rest, rfl, List.forall_mem_cons.2 ⟨hb, hblanks⟩, hs, ?_, hmore⟩
    rw [hspan, byteLength_cons, ← Nat.add_assoc]
  · intro offset piece l rest more hs hrest _ he
    obtain ⟨rfl, rfl⟩ := List.cons.inj he
    exact ⟨[], piece, rest, rfl, fun c hc => absurd hc List.not_mem_nil, hs, rfl, hrest⟩

theorem tokensFrom_blanks (hb : ∀ c ∈ blanks, isBlank c = true) (offset : Nat) (cs : List Char) :
    tokensFrom offset (blanks ++ cs) = tokensFrom (offset + byteLength blanks) cs := by
  induction blanks generalizing offset with
  | nil => rfl
  | cons c blanks ih =>
      rw [List.cons_append, tokensFrom_blank (hb c List.mem_cons_self),
        ih fun d hd => hb d (List.mem_cons_of_mem _ hd), byteLength_cons, Nat.add_assoc]

/-- **A text can be cut behind any of its tokens.**  The part in front keeps its tokens, also with
blanks from behind the cut. -/
theorem exists_cut (h : tokensFrom offset cs = .ok (pre ++ post)) (hp : post ≠ []) :
    ∃ a b, cs = a ++ b ∧ endOf offset pre = offset + byteLength a ∧
      tokensFrom (offset + byteLength a) b = .ok post ∧
      ∀ p q, b = p ++ q → (∀ c ∈ p, isBlank c = true) → ∃ last,
        tokensFrom offset (a ++ p) = .ok (pre ++ [⟨.finish, last⟩]) := by
  induction pre generalizing offset cs with
  | nil =>
      refine ⟨[], cs, rfl, rfl, h, fun p q _ hb => ?_⟩
      have hblanks := tokensFrom_blanks hb offset []
      rw [List.append_nil, tokensFrom_nil] at hblanks
      exact ⟨_, hblanks⟩
  | cons t pre ih =>
      rw [List.cons_append] at h
      obtain ⟨blanks, piece, rest, rfl, hb, hs, hspan, hrest⟩ :=
        exists_first h (List.append_ne_nil_of_right_ne_nil _ hp)
      obtain ⟨a, b, rfl, hend, hpost, hfront⟩ := ih hrest
      rw [hspan] at hpost hend hfront
      refine ⟨blanks ++ (piece ++ a), b, by simp, ?_, ?_, ?_⟩
      · rw [endOf, hspan, hend]
        simp only [byteLength_append, Nat.add_assoc]
      · rw [← hpost]
        simp only [byteLength_append, Nat.add_assoc]
      · intro p q hpq hpb
        obtain ⟨last, hlast⟩ := hfront p q hpq hpb
        rw [hpq, ← List.append_assoc] at hs
        refine ⟨last, ?_⟩
        rw [List.append_assoc, List.append_assoc, tokensFrom_blanks hb,
          tokensFrom_spells hs.of_append, hlast, ← hspan]
        rfl

/-- Tokens before the end are those of the lexemes. -/
theorem lexes_of_tokensFrom_concat {last : Span}
    (h : tokensFrom offset cs = .ok (pre ++ [⟨.finish, last⟩])) :
    Lexes cs (pre.map Token.lexeme) := by
  obtain ⟨ls, hl, hmap⟩ := lexes_of_tokensFrom h
  rw [List.map_append, List.map_singleton] at hmap
  rwa [(List.append_inj' hmap rfl).1]

/-- **The range over some tokens of a text has their lexemes.** -/
theorem lexes_slice (h : tokenize cs = .ok (pre ++ (t :: mid) ++ post)) (hp : post ≠ []) :
    Lexes (slice cs ⟨t.span.start, endOf t.span.stop mid⟩) ((t :: mid).map Token.lexeme) := by
  rw [List.append_assoc] at h
  obtain ⟨a, b, rfl, -, hb, -⟩ := exists_cut h (by simp)
  obtain ⟨blanks, piece, rest, rfl, -, hs, hspan, hrest⟩ :=
    exists_first hb (List.append_ne_nil_of_right_ne_nil _ hp)
  obtain ⟨a', b', rfl, hend, -, hfront⟩ := exists_cut hrest hp
  obtain ⟨last, hlast⟩ := hfront [] b' rfl fun c hc => absurd hc List.not_mem_nil
  rw [List.append_nil] at hlast
  have hmid := lexes_of_tokensFrom_concat hlast
  have htext := Lexes.lexeme hs.of_append hmid
  have hslice := slice_append (a ++ blanks) (piece ++ a') b'
  rw [hend, hspan]
  simp only [byteLength_append, List.append_assoc, Nat.zero_add, Nat.add_assoc] at hslice ⊢
  rw [hslice]
  exact htext

/-- **The range between two tokens of a text has the lexemes of the tokens between them.** -/
theorem lexes_between {opened closed : Token}
    (h : tokenize cs = .ok (pre ++ opened :: mid ++ closed :: post)) (hp : post ≠ []) :
    Lexes (slice cs ⟨opened.span.stop, closed.span.start⟩) (mid.map Token.lexeme) := by
  have hcut : tokensFrom 0 cs = .ok ((pre ++ [opened]) ++ (mid ++ closed :: post)) := by
    rw [← tokenize, h]
    simp
  obtain ⟨a, b, rfl, hstart, hb, -⟩ := exists_cut hcut (by simp)
  obtain ⟨a', b', rfl, hend, hb', hfront⟩ := exists_cut hb (by simp)
  obtain ⟨blanks, piece, rest, rfl, hblanks, -, hspan, -⟩ := exists_first hb' hp
  obtain ⟨last, hlast⟩ := hfront blanks (piece ++ rest) rfl hblanks
  have hmid := lexes_of_tokensFrom_concat hlast
  have hopen : opened.span.stop = byteLength a := by
    have hlast : ∀ (n : Nat) (ts : List Token), endOf n (ts ++ [opened]) = opened.span.stop := by
      intro n ts
      induction ts generalizing n with
      | nil => rfl
      | cons u ts ih => exact ih _
    rw [← hlast 0 pre, hstart, Nat.zero_add]
  have hslice := slice_append a (a' ++ blanks) (piece ++ rest)
  rw [hopen, hspan]
  simp only [byteLength_append, List.append_assoc, Nat.zero_add, Nat.add_assoc] at hslice ⊢
  rw [hslice]
  exact hmid

end Cut

end StackHeap.Command
