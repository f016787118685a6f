import StackHeap.Proofs.Command.Sections
import StackHeap.Proofs.Command.Splitting

/-! # Where lists are cut

The comma splitter works on characters and the reader on tokens.  They agree on where a text is cut
and on what stands between the cuts (`splitTopLevel_agrees`).

* **Joining.**  A cut takes out one comma (`intercalate_parts`).
* **Cuts.**  The splitter cuts at the commas that are tokens at depth zero (`topCommas`), so a comma
  in quotes or in brackets is not cut at.
* **Parts.**  A part is read as the tokens between two such commas (`tokenParts`), in their places
  (`Reads`). -/

namespace StackHeap.Command

open Text Typing

/-! ### Places of parts and tokens -/

/-- Parts with the places where they start, the first at `offset`, with a comma between them. -/
def placed (offset : Nat) : List (List Char) → List (Nat × List Char)
  | [] => []
  | part :: parts => (offset, part) :: placed (offset + byteLength part + 1) parts

/-- The places of the commas between parts that start at `offset`. -/
def cutsFrom (offset : Nat) : List (List Char) → List Nat
  | part :: next :: parts =>
    (offset + byteLength part) :: cutsFrom (offset + byteLength part + 1) (next :: parts)
  | _ => []

/-- The commas at depth zero, from a depth on. -/
def topCommas (depth : Nat) : List Token → List Token
  | [] => []
  | t :: ts =>
    if t.lexeme = .mark .comma ∧ depth = 0 then t :: topCommas depth ts
    else topCommas (t.lexeme.depthAfter depth) ts

/-- The tokens between the commas at depth zero, from a depth on. -/
def tokenParts (depth : Nat) : List Token → List (List Token)
  | [] => [[]]
  | t :: ts =>
    if t.lexeme = .mark .comma ∧ depth = 0 then [] :: tokenParts depth ts
    else (tokenParts (t.lexeme.depthAfter depth) ts).modifyHead (t :: ·)

/-- A part alone is read as tokens that stand, in its place, for those of the text.  There are none
exactly if it is blank. -/
def Reads (part : Nat × List Char) (ts : List Token) : Prop :=
  ∃ alone, tokenize part.2 =
      .ok (alone ++ [⟨.finish, ⟨byteLength part.2, byteLength part.2⟩⟩]) ∧
    ts = alone.map (Token.shift part.1) ∧ ((∀ c ∈ part.2, isBlank c = true) ↔ ts = [])

section Places

variable {offset : Nat} {piece part : List Char} {parts : List (List Char)}

theorem placed_modifyHead (offset : Nat) (piece : List Char) (parts : List (List Char)) :
    placed offset (parts.modifyHead (piece ++ ·)) =
      (placed (offset + byteLength piece) parts).modifyHead fun p => (offset, piece ++ p.2) := by
  cases parts with
  | nil => rfl
  | cons part parts =>
      rw [List.modifyHead_cons, placed, placed, List.modifyHead_cons, byteLength_append,
        ← Nat.add_assoc offset]

theorem cutsFrom_modifyHead (offset : Nat) (piece : List Char) (parts : List (List Char)) :
    cutsFrom offset (parts.modifyHead (piece ++ ·)) =
      cutsFrom (offset + byteLength piece) parts := by
  match parts with
  | [] => rfl
  | [_] => rfl
  | part :: next :: parts =>
      rw [List.modifyHead_cons, cutsFrom, cutsFrom, byteLength_append, ← Nat.add_assoc offset]

theorem mem_head?_placed {p : Nat × List Char} (h : p ∈ (placed offset parts).head?) :
    p.1 = offset ∧ p.2 ∈ parts.head? := by
  cases parts with
  | nil => cases h
  | cons part parts =>
      obtain rfl : (offset, part) = p := Option.some.inj h
      exact ⟨rfl, rfl⟩

end Places

/-! ### Joining -/

namespace Scan

theorem parts_comma (rest : List Char) :
    ({} : Scan).parts (',' :: rest) = [] :: ({} : Scan).parts rest := rfl

/-- Joining the parts of a text with commas gives the text. -/
theorem intercalate_parts (s : Scan) (cs : List Char) : [','].intercalate (s.parts cs) = cs := by
  induction cs generalizing s with
  | nil => rfl
  | cons c cs ih =>
      rw [Scan.parts]
      split
      · next hcut =>
          have hc : c = ',' := by simp_all [cutsAt]
          rw [List.intercalate_cons_of_ne_nil (parts_ne_nil _ _), ih, hc]
          rfl
      · exact (intercalate_modifyHead (parts_ne_nil _ _) [c]).trans (congrArg (c :: ·) (ih _))

end Scan

/-! ### Agreement -/

section Agreement

variable {offset : Nat} {cs : List Char} {front : List Token} {last : Token}

/-- Induction over the tokens of a text in front of its end. -/
theorem tokensFrom_concat_induct {motive : Nat → List Char → List Token → Prop}
    (nil : ∀ offset, motive offset [] [])
    (blank : ∀ {offset : Nat} {c : Char} {cs : List Char} {ts : List Token}, isBlank c = true →
      motive (offset + c.utf8Size) cs ts → motive offset (c :: cs) ts)
    (lexeme : ∀ {offset : Nat} {piece : List Char} {l : Lexeme} {rest : List Char}
      {ts : List Token}, Spells piece l rest → motive (offset + byteLength piece) rest ts →
      motive offset (piece ++ rest) (⟨l, ⟨offset, offset + byteLength piece⟩⟩ :: ts))
    (h : tokensFrom offset cs = .ok (front ++ [last])) : motive offset cs front := by
  have hfront : (front ++ [last]).dropLast = front := List.dropLast_concat
  rw [← hfront]
  refine tokensFrom_ok_induct (motive := fun offset cs ts => motive offset cs ts.dropLast)
    nil blank ?_ h
  intro offset piece l rest ts hs hrest ih
  obtain ⟨front, rfl, -⟩ := exists_front hrest
  rw [List.dropLast_concat] at ih
  rw [← List.cons_append, List.dropLast_concat]
  exact lexeme hs ih

/-- **The splitter cuts at the commas at depth zero.** -/
theorem cutsFrom_parts (h : tokensFrom offset cs = .ok (front ++ [last])) (depth : Nat) :
    cutsFrom offset (({ depth } : Scan).parts cs) =
      (topCommas depth front).map fun t => t.span.start := by
  refine tokensFrom_concat_induct (motive := fun offset cs front => ∀ depth,
    cutsFrom offset (({ depth } : Scan).parts cs) =
      (topCommas depth front).map fun t => t.span.start) ?_ ?_ ?_ h depth
  · exact fun offset depth => rfl
  · intro offset c cs front hb ih depth
    obtain ⟨hcut, hnext⟩ := ignores_of_isBlank hb depth
    rw [Scan.parts_cons_of_not_cut hcut, hnext, ← ih]
    exact cutsFrom_modifyHead offset [c] _
  · intro offset piece l rest front hs ih depth
    by_cases hl : l = .mark .comma ∧ depth = 0
    · obtain ⟨rfl, rfl⟩ := hl
      obtain ⟨part, parts, hparts⟩ := List.exists_cons_of_ne_nil (parts_ne_nil {} rest)
      have hrest := ih 0
      rw [hs.eq_of_mark, hparts] at hrest
      rw [hs.eq_of_mark, List.singleton_append, Mark.char, Scan.parts_comma, hparts, topCommas,
        if_pos ⟨rfl, rfl⟩, List.map_cons, ← hrest]
      rfl
    · rw [hs.parts_append hl, cutsFrom_modifyHead, topCommas, if_neg hl]
      exact ih _

/-- **The parts are read as the tokens between the commas at depth zero**, each from its place. -/
theorem forall₂_parts (h : tokensFrom offset cs = .ok (front ++ [last])) (depth : Nat) :
    List.Forall₂ (fun part ts => ∃ last, tokensFrom part.1 part.2 = .ok (ts ++ [⟨.finish, last⟩]))
      (placed offset (({ depth } : Scan).parts cs)) (tokenParts depth front) := by
  refine tokensFrom_concat_induct (motive := fun offset cs front => ∀ depth, List.Forall₂
    (fun part ts => ∃ last, tokensFrom part.1 part.2 = .ok (ts ++ [⟨.finish, last⟩]))
    (placed offset (({ depth } : Scan).parts cs)) (tokenParts depth front)) ?_ ?_ ?_ h depth
  · exact fun offset depth => .cons ⟨_, tokensFrom_nil offset⟩ .nil
  · intro offset c cs front hb ih depth
    obtain ⟨hcut, hnext⟩ := ignores_of_isBlank hb depth
    have hparts := forall₂_modifyHead (f := fun part => (offset, [c] ++ part.2)) (g := id) (ih depth)
      fun part hp ts ⟨last, hpart⟩ => by
        obtain ⟨start, part⟩ := part
        obtain ⟨rfl, -⟩ := mem_head?_placed hp
        exact ⟨last, by rw [List.singleton_append, tokensFrom_blank hb]; exact hpart⟩
    rw [List.modifyHead_id] at hparts
    rw [Scan.parts_cons_of_not_cut hcut, hnext]
    exact (placed_modifyHead offset [c] _) ▸ hparts
  · intro offset piece l rest front hs ih depth
    by_cases hl : l = .mark .comma ∧ depth = 0
    · obtain ⟨rfl, rfl⟩ := hl
      have hrest := ih 0
      rw [hs.eq_of_mark] at hrest
      rw [hs.eq_of_mark, List.singleton_append, Mark.char, Scan.parts_comma, tokenParts,
        if_pos ⟨rfl, rfl⟩]
      exact .cons ⟨_, tokensFrom_nil offset⟩ hrest
    · rw [hs.parts_append hl, placed_modifyHead, tokenParts, if_neg hl]
      refine forall₂_modifyHead (ih _) ?_
      rintro ⟨start, part⟩ hp ts ⟨last, hpart⟩
      obtain ⟨rfl, hp⟩ := mem_head?_placed hp
      obtain ⟨more, rfl⟩ := Scan.exists_of_mem_head?_parts hp
      refine ⟨last, ?_⟩
      rw [tokensFrom_spells hs.of_append, hpart]
      rfl

theorem reads_of_tokensFrom {part : Nat × List Char} {ts : List Token} {last : Span}
    (h : tokensFrom part.1 part.2 = .ok (ts ++ [⟨.finish, last⟩])) : Reads part ts := by
  obtain ⟨alone, halone, hts⟩ := exists_tokenize_concat h
  refine ⟨alone, halone, hts, fun hb => ?_, fun hnil => ?_⟩
  · have hmap := (lexes_of_tokensFrom_concat h).unique (lexes_blanks hb)
    exact List.map_eq_nil_iff.1 hmap
  · rw [hnil] at h
    exact isBlank_of_lexes_nil (lexes_of_tokensFrom_concat h)

/-- **The splitter agrees with the reader.**  The parts joined with commas are the text.  A text that
can be read is cut where its commas at depth zero stand, and its parts are read as the tokens between
them. -/
theorem splitTopLevel_agrees (cs : List Char) : [','].intercalate (splitTopLevel cs) = cs ∧
    ∀ front last, tokenize cs = .ok (front ++ [last]) →
      cutsFrom 0 (splitTopLevel cs) = ((topCommas 0 front).map fun t => t.span.start) ∧
      List.Forall₂ Reads (placed 0 (splitTopLevel cs)) (tokenParts 0 front) := by
  refine ⟨Scan.intercalate_parts _ cs, fun front last h => ⟨cutsFrom_parts h 0, ?_⟩⟩
  exact (forall₂_parts h 0).imp fun part ts ⟨_, hpart⟩ => reads_of_tokensFrom hpart

/-- A bracket that is closed without being opened, and commas in quotes and in brackets. -/
theorem splitTopLevel_agrees_quoted :
    cutsFrom 0 (splitTopLevel "],\",\\\"\", (',') ,".toList) = [1, 7, 15] ∧
      List.Forall₂ Reads (placed 0 (splitTopLevel "],\",\\\"\", (',') ,".toList))
        [[⟨.mark (.closing .square), ⟨0, 1⟩⟩], [⟨.stringLiteral ",\"", ⟨2, 7⟩⟩],
          [⟨.mark (.opening .round), ⟨9, 10⟩⟩, ⟨.charLiteral ",", ⟨10, 13⟩⟩,
            ⟨.mark (.closing .round), ⟨13, 14⟩⟩], []] := by
  have h : tokenize "],\",\\\"\", (',') ,".toList =
      .ok ([⟨.mark (.closing .square), ⟨0, 1⟩⟩, ⟨.mark .comma, ⟨1, 2⟩⟩,
        ⟨.stringLiteral ",\"", ⟨2, 7⟩⟩, ⟨.mark .comma, ⟨7, 8⟩⟩, ⟨.mark (.opening .round), ⟨9, 10⟩⟩,
        ⟨.charLiteral ",", ⟨10, 13⟩⟩, ⟨.mark (.closing .round), ⟨13, 14⟩⟩,
        ⟨.mark .comma, ⟨15, 16⟩⟩] ++ [⟨.finish, ⟨16, 16⟩⟩]) := by
    decide +kernel
  exact (splitTopLevel_agrees _).2 _ _ h

end Agreement

end StackHeap.Command
