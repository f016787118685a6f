import StackHeap.Proofs.Command.Quoting

/-! # Lines with a right-hand side

A semicolon ends whatever stands before it: a text that is read as lexemes is read as the same ones
with a semicolon behind it (`Lexes.append_cons`).  So the lexemes of a right-hand side stand in
the lines that assign it to a variable or declare a variable with it (`lexes_assigning`,
`lexes_initialising`), whatever the text of the right-hand side.

The other way round, such a line can be read only if its right-hand side can
(`Readable.of_assigning`, `Readable.of_initialising`). -/

namespace StackHeap.Command

open Text

variable {cs piece rest : List Char} {l : Lexeme} {ls : List Lexeme} {name : String}

/-! ### Lines -/

/-- The line that assigns a right-hand side to a variable. -/
def assigning (name side : String) : String := name ++ " = " ++ side ++ ";"

/-- The line that declares a variable with a right-hand side. -/
def initialising (typeName name side : String) : String :=
  typeName ++ " " ++ name ++ " = " ++ side ++ ";"

theorem lexes_semicolon : Lexes [';'] [.mark .semicolon] := (Delimited.nil.mark .semicolon).lexes

theorem lexes_assigning {side : String} (hn : IsIdentifier name) (h : Lexes side.toList ls) :
    Lexes (assigning name side).toList
      (.ident name :: .mark .equals :: (ls ++ [.mark .semicolon])) := by
  have hline : (assigning name side).toList =
      name.toList ++ [' ', '=', ' '] ++ (side.toList ++ [';']) := by
    simp [assigning, String.toList_append]
  have hhead := (Delimited.nil.blank.mark .equals).blank.ident hn rfl
  rw [hline]
  exact hhead _ _ (h.append_cons rfl lexes_semicolon)

theorem lexes_initialising {typeName side : String} (ht : IsIdentifier typeName)
    (hn : IsIdentifier name) (h : Lexes side.toList ls) :
    Lexes (initialising typeName name side).toList
      (.ident typeName :: .ident name :: .mark .equals :: (ls ++ [.mark .semicolon])) := by
  have hline : (initialising typeName name side).toList =
      typeName.toList ++ ' ' :: (name.toList ++ [' ', '=', ' ']) ++ (side.toList ++ [';']) := by
    simp [initialising, String.toList_append]
  have hhead := ((Delimited.nil.blank.mark .equals).blank.ident hn rfl).blank.ident ht rfl
  rw [hline]
  exact hhead _ _ (h.append_cons rfl lexes_semicolon)

/-! ### Texts that can be read -/

/-- The text is read as some lexemes. -/
def Readable (cs : List Char) : Prop := ∃ ls, Lexes cs ls

theorem getLast?_of_quotes {quote : Char} {body text : List Char} (h : Quotes quote body text) :
    body.getLast? = some quote := by
  induction h with
  | close => rfl
  | escape _ _ ih => rw [List.getLast?_cons_cons, List.getLast?_cons, ih, Option.getD_some]
  | plain _ _ _ ih => rw [List.getLast?_cons, ih, Option.getD_some]

/-- No lexeme ends with a semicolon but the semicolon itself. -/
theorem Spells.eq_nil_of_semicolon (h : Spells (cs ++ [';']) l rest) : cs = [] := by
  generalize hp : cs ++ [';'] = piece at h
  have hlast : piece.getLast? = some ';' := by rw [← hp, List.getLast?_concat]
  cases h with
  | stringLiteral h =>
      rw [List.getLast?_cons, getLast?_of_quotes h] at hlast
      cases hlast
  | charLiteral h =>
      rw [List.getLast?_cons, getLast?_of_quotes h] at hlast
      cases hlast
  | number hc h => cases isNumberChar_of_spells hc h _ (List.mem_of_getLast? hlast)
  | word hc hw _ => cases isWordChar_of_spells hc hw _ (List.mem_of_getLast? hlast)
  | mark m => exact List.append_eq_singleton_iff.1 hp |>.elim (·.1) fun h => absurd h.2 (by simp)

namespace Readable

theorem of_blank {c : Char} (hb : isBlank c = true) (h : Readable (c :: cs)) : Readable cs := by
  obtain ⟨ls, hl⟩ := h
  obtain ⟨ts, hts, -⟩ := hl.exists_tokensFrom 0
  rw [tokensFrom_blank hb] at hts
  obtain ⟨ls', hl', -⟩ := lexes_of_tokensFrom hts
  exact ⟨ls', hl'⟩

theorem of_spells (hs : Spells piece l rest) (h : Readable (piece ++ rest)) : Readable rest := by
  obtain ⟨ls, hl⟩ := h
  obtain ⟨ts, hts, -⟩ := hl.exists_tokensFrom 0
  rw [tokensFrom_spells hs] at hts
  obtain ⟨ts', hts', -⟩ := map_eq_ok.1 hts
  obtain ⟨ls', hl', -⟩ := lexes_of_tokensFrom hts'
  exact ⟨ls', hl'⟩

theorem of_append_semicolon (h : Readable (cs ++ [';'])) : Readable cs := by
  obtain ⟨ls, hl⟩ := h
  generalize hw : cs ++ [';'] = whole at hl
  induction hl generalizing cs with
  | nil => simp at hw
  | @blank c more ls hb hmore ih =>
      cases cs with
      | nil =>
          rw [List.nil_append] at hw
          rw [← (List.cons.inj hw).1] at hb
          cases hb
      | cons d cs =>
          obtain ⟨rfl, hcs⟩ := List.cons.inj hw
          obtain ⟨ks, hk⟩ := ih hcs
          exact ⟨ks, .blank hb hk⟩
  | @lexeme piece rest l ls hs hrest ih =>
      rcases List.eq_nil_or_concat rest with rfl | ⟨more, e, rfl⟩
      · rw [List.append_nil] at hw
        rw [← hw] at hs
        rw [hs.eq_nil_of_semicolon]
        exact ⟨[], .nil⟩
      · rw [List.concat_eq_append, ← List.append_assoc] at hw
        obtain ⟨rfl, he⟩ := List.append_inj' hw rfl
        obtain rfl := List.cons.inj he |>.1
        rw [List.concat_eq_append] at hs ih
        obtain ⟨ks, hk⟩ := ih rfl
        exact ⟨l :: ks, .lexeme hs.of_append hk⟩

/-- A line that assigns can be read only if its right-hand side can. -/
theorem of_assigning {side : String} (hn : IsIdentifier name)
    (h : Readable (assigning name side).toList) : Readable side.toList := by
  have hline : (assigning name side).toList =
      name.toList ++ ' ' :: ([Mark.equals.char] ++ ' ' :: (side.toList ++ [';'])) := by
    simp [assigning, String.toList_append, Mark.char]
  rw [hline] at h
  have hrest := of_spells (hn.spells (d := ' ') rfl _) h
  exact ((of_spells (.mark .equals) (hrest.of_blank rfl)).of_blank rfl).of_append_semicolon

/-- So does one that declares. -/
theorem of_initialising {typeName side : String} (ht : IsIdentifier typeName)
    (hn : IsIdentifier name) (h : Readable (initialising typeName name side).toList) :
    Readable side.toList := by
  have hline : (initialising typeName name side).toList =
      typeName.toList ++ ' ' :: (assigning name side).toList := by
    simp [initialising, assigning, String.toList_append]
  rw [hline] at h
  exact ((of_spells (ht.spells (d := ' ') rfl _) h).of_blank rfl).of_assigning hn

end Readable

end StackHeap.Command
