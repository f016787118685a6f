import Mathlib.Data.List.Forall2
import StackHeap.Proofs.Command.Lexing

/-! # The comma splitter and lexemes

Lists are cut on characters, by a scan that keeps track of quotes and brackets on its own.  It
agrees with the lexemes of the text: the parts have the lexemes between the commas that stand
outside all brackets (`lexes_splitTopLevel`).  Cutting is undone by joining with commas
(`commaList_lexemeParts`), and undoes it where no part has commas or brackets of its own
(`lexemeParts_commaList`).

A scan comes back to the same depth behind a quoted literal, with every quote and escape told apart
as reading tells them (`parts_of_quotes`); words, numbers and blanks leave it as it is; and a
bracket changes the depth by one.  A part is the start of what is left of the text, so its lexemes
are spelled as they are in the whole (`Spells.of_append`). -/

namespace StackHeap.Command

open Text

/-! ### Lists of lexemes -/

/-- The depth behind a lexeme; all kinds of brackets count alike, and it does not go below zero. -/
def Lexeme.depthAfter (depth : Nat) : Lexeme → Nat
  | .mark (.opening _) => depth + 1
  | .mark (.closing _) => depth - 1
  | _ => depth

/-- The lexemes between the commas at depth zero, from a depth on. -/
def lexemeParts (depth : Nat) : List Lexeme → List (List Lexeme)
  | [] => [[]]
  | l :: ls =>
    if l = .mark .comma ∧ depth = 0 then [] :: lexemeParts depth ls
    else (lexemeParts (l.depthAfter depth) ls).modifyHead (l :: ·)

/-- Parts with commas between them. -/
def commaList (parts : List (List Lexeme)) : List Lexeme := [.mark .comma].intercalate parts

/-- Whether a lexeme is neither a comma nor a bracket. -/
def Lexeme.isFlat : Lexeme → Bool
  | .mark .comma | .mark (.opening _) | .mark (.closing _) => false
  | _ => true

theorem lexemeParts_ne_nil (depth : Nat) (ls : List Lexeme) : lexemeParts depth ls ≠ [] := by
  induction ls generalizing depth with
  | nil => exact List.cons_ne_nil _ _
  | cons l ls ih =>
      rw [lexemeParts]
      split
      · exact List.cons_ne_nil _ _
      · exact fun h => ih _ (List.modifyHead_eq_nil_iff.1 h)

theorem intercalate_modifyHead {α : Type} {sep : List α} {parts : List (List α)} (hne : parts ≠ [])
    (front : List α) :
    sep.intercalate (parts.modifyHead (front ++ ·)) = front ++ sep.intercalate parts := by
  match parts with
  | [] => exact absurd rfl hne
  | [part] =>
      rw [List.modifyHead_cons, List.intercalate_singleton, List.intercalate_singleton]
  | part :: part' :: parts =>
      rw [List.modifyHead_cons, List.intercalate_cons_cons, List.intercalate_cons_cons]
      simp only [List.append_assoc]

/-- **Joining the parts of a list gives the list.** -/
theorem commaList_lexemeParts (depth : Nat) (ls : List Lexeme) :
    commaList (lexemeParts depth ls) = ls := by
  induction ls generalizing depth with
  | nil => rfl
  | cons l ls ih =>
      rw [lexemeParts]
      split
      · next h =>
          rw [commaList, List.intercalate_cons_of_ne_nil (lexemeParts_ne_nil _ _), h.1]
          exact congrArg _ (ih depth)
      · exact (intercalate_modifyHead (lexemeParts_ne_nil _ _) [l]).trans
          (congrArg (l :: ·) (ih (l.depthAfter depth)))

theorem depthAfter_of_isFlat {l : Lexeme} (h : l.isFlat = true) (depth : Nat) :
    l.depthAfter depth = depth := by
  rcases l with _ | _ | _ | _ | _ | m | _
  case mark => rcases m with _ | _ | _ | _ | _ | b | b <;> first | rfl | cases h
  all_goals rfl

theorem lexemeParts_append {part : List Lexeme} (h : ∀ l ∈ part, l.isFlat = true) (depth : Nat)
    (rest : List Lexeme) :
    lexemeParts depth (part ++ rest) = (lexemeParts depth rest).modifyHead (part ++ ·) := by
  induction part with
  | nil => exact (congrFun List.modifyHead_id _).symm
  | cons l part ih =>
      have hl := h l List.mem_cons_self
      have hne : l ≠ .mark .comma := by
        rintro rfl
        cases hl
      rw [List.cons_append, lexemeParts, if_neg fun hc => hne hc.1, depthAfter_of_isFlat hl,
        ih fun k hk => h k (List.mem_cons_of_mem _ hk), List.modifyHead_modifyHead]
      rfl

/-- **Joined parts without commas and brackets are the parts of the list.** -/
theorem lexemeParts_commaList {parts : List (List Lexeme)} (hne : parts ≠ [])
    (h : ∀ part ∈ parts, ∀ l ∈ part, l.isFlat = true) : lexemeParts 0 (commaList parts) = parts := by
  induction parts with
  | nil => exact absurd rfl hne
  | cons part parts ih =>
      have hpart := h part List.mem_cons_self
      cases parts with
      | nil =>
          have hp := lexemeParts_append hpart 0 []
          rw [List.append_nil] at hp
          rw [commaList, List.intercalate_singleton, hp, lexemeParts, List.modifyHead_cons,
            List.append_nil]
      | cons part' parts =>
          have hrest := ih (List.cons_ne_nil _ _) fun q hq => h q (List.mem_cons_of_mem _ hq)
          rw [commaList, List.intercalate_cons_cons, List.append_assoc, lexemeParts_append hpart,
            List.singleton_append, lexemeParts, if_pos ⟨rfl, rfl⟩, ← commaList, hrest,
            List.modifyHead_cons, List.append_nil]

theorem mem_commaList {parts : List (List Lexeme)} {l : Lexeme} (h : l ∈ commaList parts) :
    l = .mark .comma ∨ ∃ part ∈ parts, l ∈ part := by
  induction parts with
  | nil => cases h
  | cons part parts ih =>
      cases parts with
      | nil => exact .inr ⟨part, List.mem_cons_self, by simpa [commaList] using h⟩
      | cons part' parts =>
          rw [commaList, List.intercalate_cons_cons, List.append_assoc, List.mem_append,
            List.singleton_append, List.mem_cons] at h
          rcases h with h | h | h
          · exact .inr ⟨part, List.mem_cons_self, h⟩
          · exact .inl h
          · exact (ih h).imp_right fun ⟨q, hq, hl⟩ => ⟨q, List.mem_cons_of_mem _ hq, hl⟩

theorem mem_commaList_of_mem {parts : List (List Lexeme)} {part : List Lexeme} {l : Lexeme}
    (hp : part ∈ parts) (h : l ∈ part) : l ∈ commaList parts := by
  induction parts with
  | nil => cases hp
  | cons first parts ih =>
      cases parts with
      | nil =>
          rw [commaList, List.intercalate_singleton, ← List.mem_singleton.1 hp]
          exact h
      | cons second parts =>
          rw [commaList, List.intercalate_cons_cons, List.append_assoc, List.mem_append,
            List.singleton_append, List.mem_cons]
          rcases List.mem_cons.1 hp with rfl | hp
          · exact .inl h
          · exact .inr (.inr (ih hp))

/-! ### Scans -/

namespace Scan

variable {s : Scan} {c : Char} {piece rest part : List Char}

/-- The first part is the start of the text. -/
theorem exists_of_mem_head?_parts {cs : List Char} (h : part ∈ (s.parts cs).head?) :
    ∃ more, cs = part ++ more := by
  induction cs generalizing s part with
  | nil =>
      obtain rfl : [] = part := Option.some.inj h
      exact ⟨[], rfl⟩
  | cons c cs ih =>
      rw [Scan.parts] at h
      split at h
      · obtain rfl : [] = part := Option.some.inj h
        exact ⟨c :: cs, rfl⟩
      · rw [List.head?_modifyHead, Option.mem_def, Option.map_eq_some_iff] at h
        obtain ⟨first, hf, rfl⟩ := h
        obtain ⟨more, rfl⟩ := ih hf
        exact ⟨more, rfl⟩

theorem parts_cons_of_not_cut (h : s.cutsAt c = false) (rest : List Char) :
    s.parts (c :: rest) = ((s.next c).parts rest).modifyHead (c :: ·) := by
  rw [Scan.parts, h]
  rfl

/-- The scan takes no notice of the character outside quotes. -/
def Ignores (c : Char) : Prop :=
  ∀ depth : Nat, ({ depth } : Scan).cutsAt c = false ∧ ({ depth } : Scan).next c = { depth }

theorem ignores_of_ne (h : ∀ d ∈ ['"', '\'', '(', '\x7b', '[', ')', '\x7d', ']', ','], c ≠ d) :
    Ignores c := by
  intro depth
  simp only [List.mem_cons, List.not_mem_nil, or_false, forall_eq_or_imp, forall_eq] at h
  simp [cutsAt, next, h]

theorem ignores_of_test {p : Char → Bool} (hc : p c = true)
    (hp : ['"', '\'', '(', '\x7b', '[', ')', '\x7d', ']', ','].all (fun d => !p d) = true) :
    Ignores c :=
  ignores_of_ne fun d hd => Char.ne_of_test hc (by simpa using List.all_eq_true.1 hp d hd)

theorem parts_of_ignores {depth : Nat} (h : ∀ c ∈ piece, Ignores c) (rest : List Char) :
    ({ depth } : Scan).parts (piece ++ rest) =
      (({ depth } : Scan).parts rest).modifyHead (piece ++ ·) := by
  induction piece with
  | nil => exact (congrFun List.modifyHead_id _).symm
  | cons c piece ih =>
      obtain ⟨hcut, hnext⟩ := h c List.mem_cons_self depth
      rw [List.cons_append, parts_cons_of_not_cut hcut, hnext,
        ih fun d hd => h d (List.mem_cons_of_mem _ hd), List.modifyHead_modifyHead]
      rfl

/-- **A scan through quoted contents comes out where it went in.** -/
theorem parts_of_quotes {quote : Char} {body text : List Char} (h : Quotes quote body text)
    (hq : quote ≠ '\\') (depth : Nat) (rest : List Char) :
    ({ depth, quote := some quote } : Scan).parts (body ++ rest) =
      (({ depth } : Scan).parts rest).modifyHead (body ++ ·) := by
  -- Inside quotes nothing is cut.
  have step : ∀ (escaped : Bool) (c : Char) (cs : List Char),
      ({ depth, quote := some quote, escaped } : Scan).parts (c :: cs) =
        ((({ depth, quote := some quote, escaped } : Scan).next c).parts cs).modifyHead (c :: ·) :=
    fun escaped c cs => parts_cons_of_not_cut (by simp [cutsAt]) cs
  induction h with
  | close =>
      have hnext : ({ depth, quote := some quote } : Scan).next quote = { depth } := by
        simp [next, hq]
      rw [List.singleton_append, step, hnext]
      rfl
  | @escape c d body text hd _ ih =>
      have hback : ({ depth, quote := some quote } : Scan).next '\\' =
          { depth, quote := some quote, escaped := true } := by simp [next]
      have hnext : ({ depth, quote := some quote, escaped := true } : Scan).next c =
          { depth, quote := some quote } := by simp [next]
      rw [List.cons_append, List.cons_append, step, hback, step, hnext, ih,
        List.modifyHead_modifyHead, List.modifyHead_modifyHead]
      rfl
  | @plain c body text hb hc _ ih =>
      have hnext : ({ depth, quote := some quote } : Scan).next c =
          { depth, quote := some quote } := by simp [next, hb, hc]
      rw [List.cons_append, step, hnext, ih, List.modifyHead_modifyHead]
      rfl

theorem parts_of_quoted {quote : Char} {body text : List Char} (h : Quotes quote body text)
    (hq : quote = '"' ∨ quote = '\'') (depth : Nat) (rest : List Char) :
    ({ depth } : Scan).parts ((quote :: body) ++ rest) =
      (({ depth } : Scan).parts rest).modifyHead ((quote :: body) ++ ·) := by
  have hnext : ({ depth } : Scan).next quote = { depth, quote := some quote } := by
    simp [next, hq]
  have hcut : ({ depth } : Scan).cutsAt quote = false := by
    rcases hq with rfl | rfl <;> simp [cutsAt]
  rw [List.cons_append, parts_cons_of_not_cut hcut, hnext,
    parts_of_quotes h (by rcases hq with rfl | rfl <;> decide), List.modifyHead_modifyHead]
  rfl

end Scan

/-! ### Agreement -/

/-- A spelled lexeme that is no comma at depth zero stays whole, and changes the depth as the lexeme
does. -/
theorem Spells.parts_append {piece rest : List Char} {l : Lexeme} (h : Spells piece l rest)
    {depth : Nat} (hl : ¬(l = .mark .comma ∧ depth = 0)) :
    ({ depth } : Scan).parts (piece ++ rest) =
      (({ depth := l.depthAfter depth } : Scan).parts rest).modifyHead (piece ++ ·) := by
  cases h with
  | stringLiteral h => exact Scan.parts_of_quoted h (.inl rfl) depth rest
  | charLiteral h => exact Scan.parts_of_quoted h (.inr rfl) depth rest
  | number hc h =>
      refine Scan.parts_of_ignores (fun d hd => ?_) rest
      exact Scan.ignores_of_test (isNumberChar_of_spells hc h d hd) (by decide)
  | @word c taken _ hc hw hr =>
      have hdepth : (wordLexeme (String.ofList (c :: taken))).depthAfter depth = depth := by
        unfold wordLexeme
        cases Keyword.ofName? _ <;> rfl
      rw [hdepth]
      refine Scan.parts_of_ignores (fun d hd => ?_) rest
      exact Scan.ignores_of_test (isWordChar_of_spells hc hw d hd) (by decide)
  | mark m =>
      have hcut : ({ depth } : Scan).cutsAt m.char = false := by
        rcases m with _ | _ | _ | _ | _ | b | b <;> try cases b
        all_goals simp_all [Scan.cutsAt, Mark.char, Bracket.opener, Bracket.closer]
      have hnext : ({ depth } : Scan).next m.char =
          { depth := (Lexeme.mark m).depthAfter depth } := by
        rcases m with _ | _ | _ | _ | _ | b | b <;> try cases b
        all_goals simp [Scan.next, Mark.char, Bracket.opener, Bracket.closer, Lexeme.depthAfter]
      rw [List.singleton_append, Scan.parts_cons_of_not_cut hcut, hnext]
      rfl

theorem forall₂_modifyHead {α β : Type} {R : α → β → Prop} {f : α → α} {g : β → β}
    {as : List α} {bs : List β} (h : List.Forall₂ R as bs)
    (hfg : ∀ a ∈ as.head?, ∀ b, R a b → R (f a) (g b)) :
    List.Forall₂ R (as.modifyHead f) (bs.modifyHead g) := by
  cases h with
  | nil => exact .nil
  | cons hab h => exact .cons (hfg _ rfl _ hab) h

theorem ignores_of_isBlank {c : Char} (h : isBlank c = true) : Scan.Ignores c :=
  Scan.ignores_of_test h (by decide)

theorem lexes_parts {cs : List Char} {ls : List Lexeme} (h : Lexes cs ls) (depth : Nat) :
    List.Forall₂ Lexes (({ depth } : Scan).parts cs) (lexemeParts depth ls) := by
  induction h generalizing depth with
  | nil => exact .cons .nil .nil
  | @blank c cs ls hb _ ih =>
      obtain ⟨hcut, hnext⟩ := ignores_of_isBlank hb depth
      rw [Scan.parts_cons_of_not_cut hcut, hnext]
      have hparts := forall₂_modifyHead (f := (c :: ·)) (g := id) (ih depth)
        fun part _ ls hpart => .blank hb hpart
      rwa [List.modifyHead_id] at hparts
  | @lexeme piece rest l ls hs _ ih =>
      by_cases hl : l = .mark .comma ∧ depth = 0
      · obtain ⟨rfl, rfl⟩ := hl
        rw [hs.eq_of_mark]
        exact .cons .nil (ih 0)
      · rw [hs.parts_append hl, lexemeParts, if_neg hl]
        refine forall₂_modifyHead (ih _) fun part hp ls hpart => ?_
        obtain ⟨more, rfl⟩ := Scan.exists_of_mem_head?_parts hp
        exact .lexeme hs.of_append hpart

/-- **The parts of a list have the lexemes between its commas at depth zero.** -/
theorem lexes_splitTopLevel {cs : List Char} {ls : List Lexeme} (h : Lexes cs ls) :
    List.Forall₂ Lexes (splitTopLevel cs) (lexemeParts 0 ls) := lexes_parts h 0

end StackHeap.Command
