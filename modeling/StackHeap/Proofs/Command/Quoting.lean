import StackHeap.Proofs.Command.Slices
import StackHeap.Proofs.Command.Splitting

/-! # Quoted text in command lines

`quoted` puts a text between double quotes, with a backslash before every backslash and every double
quote.  What is read back is the text (`quotes_flatMap`), whatever it holds and whatever follows it.

The lines that declare or assign quoted texts are put together from parts that are read alike before
any rest (`Delimited`), so their lexemes are those of the parts in turn. -/

namespace StackHeap.Command

open Text Typing

/-! ### Quoting -/

/-- A character between double quotes. -/
def quoteChar (c : Char) : List Char := if c = '\\' ∨ c = '"' then ['\\', c] else [c]

/-- A text between double quotes. -/
def quoted (s : String) : String := String.ofList ('"' :: (s.toList.flatMap quoteChar ++ ['"']))

theorem quotes_flatMap (text : List Char) :
    Quotes '"' (text.flatMap quoteChar ++ ['"']) text := by
  induction text with
  | nil => exact .close
  | cons c text ih =>
      rw [List.flatMap_cons, List.append_assoc]
      unfold quoteChar
      split
      · next hc =>
          refine .escape ?_ ih
          rcases hc with rfl | rfl <;> rfl
      · next hc =>
          rw [not_or] at hc
          exact .plain hc.1 hc.2 ih

/-! ### Names -/

/-- A name that is read as an identifier. -/
def IsIdentifier (name : String) : Prop := lexemes? name.toList = some [.ident name]

instance (name : String) : Decidable (IsIdentifier name) :=
  inferInstanceAs (Decidable (lexemes? name.toList = some [.ident name]))

/-- A word that is spelled as a name. -/
theorem exists_word_of_spells {piece rest : List Char} {name : String}
    (h : Spells piece (.ident name) rest) :
    ∃ c taken, name.toList = c :: taken ∧ (c.isAlpha = true ∨ c = '_') ∧
      taken.all isWordChar = true ∧ wordLexeme name = .ident name := by
  generalize hi : Lexeme.ident name = l at h
  cases h with
  | @word c taken _ hc hw _ =>
      have hname : String.ofList (c :: taken) = name := by
        unfold wordLexeme at hi
        cases hk : Keyword.ofName? (String.ofList (c :: taken)) with
        | none =>
            rw [hk] at hi
            exact (Lexeme.ident.inj hi).symm
        | some k =>
            rw [hk] at hi
            cases hi
      refine ⟨c, taken, ?_, hc, List.all_eq_true.2 hw, ?_⟩
      · rw [← hname, String.toList_ofList]
      · rw [hname]
  | _ => cases hi

/-- A word is what it is read as. -/
theorem exists_word_of_lexes {cs : List Char} {name : String} (h : Lexes cs [.ident name]) :
    ∃ c taken, name.toList = c :: taken ∧ (c.isAlpha = true ∨ c = '_') ∧
      taken.all isWordChar = true ∧ wordLexeme name = .ident name := by
  generalize hl : [Lexeme.ident name] = ls at h
  induction h with
  | nil => cases hl
  | blank _ _ ih => exact ih hl
  | lexeme hs _ _ =>
      obtain ⟨rfl, -⟩ := List.cons.inj hl
      exact exists_word_of_spells hs

theorem IsIdentifier.spells {name : String} {d : Char} (hn : IsIdentifier name) (hd : isWordChar d = false)
    (rest : List Char) : Spells name.toList (.ident name) (d :: rest) := by
  obtain ⟨c, taken, he, hc, hw, hl⟩ := exists_word_of_lexes (lexemes?_eq_some_iff.1 hn)
  have hspell : Spells (c :: taken) (wordLexeme (String.ofList (c :: taken))) (d :: rest) :=
    .word hc (List.all_eq_true.1 hw) fun e he => by rwa [← Option.some.inj he]
  rwa [← he, String.ofList_toList, hl] at hspell

/-- A name that is read in a text is an identifier. -/
theorem isIdentifier_of_mem {cs : List Char} {ls : List Lexeme} {name : String} (h : Lexes cs ls)
    (hm : .ident name ∈ ls) : IsIdentifier name := by
  induction h with
  | nil => cases hm
  | blank _ _ ih => exact ih hm
  | lexeme hs _ ih =>
      rcases List.mem_cons.1 hm with rfl | hm
      · obtain ⟨c, taken, he, hc, hw, hl⟩ := exists_word_of_spells hs
        have hspell : Spells (c :: taken) (wordLexeme (String.ofList (c :: taken))) [] :=
          .word hc (List.all_eq_true.1 hw) fun d hd => by cases hd
        rw [← he, String.ofList_toList, hl] at hspell
        refine lexemes?_eq_some_iff.2 ?_
        have hlex := Lexes.lexeme hspell .nil
        rwa [List.append_nil] at hlex
      · exact ih hm

/-! ### Parts of a line -/

/-- The text is read as lexemes, whatever follows it. -/
def Delimited (cs : List Char) (ls : List Lexeme) : Prop :=
  ∀ rest ks, Lexes rest ks → Lexes (cs ++ rest) (ls ++ ks)

variable {cs cs' : List Char} {ls ls' : List Lexeme} {name : String}

namespace Delimited

theorem nil : Delimited [] [] := fun _ _ h => h

theorem lexes (h : Delimited cs ls) : Lexes cs ls := by
  have hl := h [] [] .nil
  rwa [List.append_nil, List.append_nil] at hl

theorem append (h : Delimited cs ls) (h' : Delimited cs' ls') :
    Delimited (cs ++ cs') (ls ++ ls') := by
  intro rest ks hr
  rw [List.append_assoc, List.append_assoc]
  exact h _ _ (h' rest ks hr)

theorem blank (h : Delimited cs ls) : Delimited (' ' :: cs) ls :=
  fun rest ks hr => .blank rfl (h rest ks hr)

theorem mark (m : Mark) (h : Delimited cs ls) : Delimited (m.char :: cs) (.mark m :: ls) := by
  intro rest ks hr
  rw [← List.singleton_append, List.append_assoc]
  exact .lexeme (.mark m) (h rest ks hr)

theorem quoted (text : String) (h : Delimited cs ls) :
    Delimited ((quoted text).toList ++ cs) (.stringLiteral text :: ls) := by
  intro rest ks hr
  have hs : Spells (Command.quoted text).toList (.stringLiteral text) (cs ++ rest) := by
    have hs := @Spells.stringLiteral _ _ (cs ++ rest) (quotes_flatMap text.toList)
    rwa [String.ofList_toList, ← @String.toList_ofList ('"' :: _)] at hs
  rw [List.append_assoc]
  exact .lexeme hs (h rest ks hr)

/-- A word ends before a character that is none of a word. -/
theorem word {c d : Char} {taken : List Char} (hc : c.isAlpha = true ∨ c = '_')
    (hw : taken.all isWordChar = true) (hd : isWordChar d = false)
    (h : Delimited (d :: cs) ls) :
    Delimited (c :: taken ++ d :: cs) (wordLexeme (String.ofList (c :: taken)) :: ls) := by
  intro rest ks hr
  rw [List.append_assoc]
  refine .lexeme (.word hc (List.all_eq_true.1 hw) fun e he => ?_) (h rest ks hr)
  rwa [← Option.some.inj he]

theorem ident {d : Char} (hn : IsIdentifier name) (hd : isWordChar d = false)
    (h : Delimited (d :: cs) ls) : Delimited (name.toList ++ d :: cs) (.ident name :: ls) := by
  intro rest ks hr
  rw [List.append_assoc]
  exact .lexeme (hn.spells hd _) (h rest ks hr)

/-- Parts that are joined with commas. -/
theorem joined {parts : List (List Char)} {lexed : List (List Lexeme)}
    (h : List.Forall₂ Delimited parts lexed) :
    Delimited ([',', ' '].intercalate parts) (commaList lexed) := by
  induction h with
  | nil => exact nil
  | @cons part ls parts lexed hpart hparts ih =>
      cases hparts with
      | nil => simpa [commaList, List.intercalate_singleton] using hpart
      | cons _ _ =>
          rw [List.intercalate_cons_cons, commaList, List.intercalate_cons_cons]
          exact (hpart.append (mark .comma (blank nil))).append ih

end Delimited

/-! ### Lines -/

/-- The line that declares a variable of a text. -/
def textLine (name text : String) : String := "String " ++ name ++ " = " ++ quoted text ++ ";"

/-- The line that declares an array of texts. -/
def textsLine (name : String) (texts : List String) : String :=
  "String[] " ++ name ++ " = \x7b" ++ ", ".intercalate (texts.map quoted) ++ "\x7d;"

/-- An attribute with a name and a text. -/
def textAttribute (field : String × String) : String := field.1 ++ " = " ++ quoted field.2

/-- The line that declares a variable of a new object with texts in its fields. -/
def recordLine (category name : String) (fields : List (String × String)) : String :=
  category ++ " " ++ name ++ " = new " ++ category ++ "(" ++
    ", ".intercalate (fields.map textAttribute) ++ ");"

/-- The line that assigns a text to a variable. -/
def textAssignment (name text : String) : String := name ++ " = " ++ quoted text ++ ";"

theorem isIdentifier_string : IsIdentifier "String" := by decide +kernel

theorem lexes_textLine (hn : IsIdentifier name) (text : String) :
    Lexes (textLine name text).toList
      [.ident "String", .ident name, .mark .equals, .stringLiteral text, .mark .semicolon] := by
  have hline : (textLine name text).toList = "String".toList ++ ' ' :: (name.toList ++ ' ' :: '=' ::
      ' ' :: ((quoted text).toList ++ [';'])) := by
    simp [textLine, String.toList_append]
  have hvalue := (Delimited.nil.mark .semicolon).quoted text
  have hname := (hvalue.blank.mark .equals).blank.ident hn rfl
  rw [hline]
  exact (hname.blank.ident isIdentifier_string rfl).lexes

theorem lexes_textsLine (hn : IsIdentifier name) (texts : List String) :
    Lexes (textsLine name texts).toList
      (.ident "String" :: .mark (.opening .square) :: .mark (.closing .square) :: .ident name ::
        .mark .equals :: .mark (.opening .curly) ::
        (commaList (texts.map fun text => [.stringLiteral text]) ++
          [.mark (.closing .curly), .mark .semicolon])) := by
  have hline : (textsLine name texts).toList = "String".toList ++ '[' :: ']' :: ' ' ::
      (name.toList ++ ' ' :: '=' :: ' ' :: '\x7b' ::
        ([',', ' '].intercalate (texts.map fun text => (quoted text).toList) ++ ['\x7d', ';'])) := by
    simp [textsLine, String.toList_append, String.toList_intercalate, Function.comp_def]
  have hparts : List.Forall₂ Delimited (texts.map fun text => (quoted text).toList)
      (texts.map fun text => [.stringLiteral text]) := by
    rw [List.forall₂_map_left_iff, List.forall₂_map_right_iff, List.forall₂_same]
    intro text _
    have h := Delimited.nil.quoted text
    rwa [List.append_nil] at h
  have hlist := (Delimited.joined hparts).append
    ((Delimited.nil.mark .semicolon).mark (.closing .curly))
  have hname := ((hlist.mark (.opening .curly)).blank.mark .equals).blank.ident hn rfl
  rw [hline]
  exact (((hname.blank.mark (.closing .square)).mark (.opening .square)).ident isIdentifier_string
    rfl).lexes

theorem delimited_textAttribute {field : String × String} (hn : IsIdentifier field.1) :
    Delimited (textAttribute field).toList
      [.ident field.1, .mark .equals, .stringLiteral field.2] := by
  have htext : (textAttribute field).toList =
      field.1.toList ++ ' ' :: '=' :: ' ' :: (quoted field.2).toList := by
    simp [textAttribute, String.toList_append]
  have hvalue := Delimited.nil.quoted field.2
  rw [List.append_nil] at hvalue
  rw [htext]
  exact (hvalue.blank.mark .equals).blank.ident hn rfl

theorem lexes_recordLine {category : String} {fields : List (String × String)}
    (hc : IsIdentifier category) (hn : IsIdentifier name)
    (hf : ∀ field ∈ fields, IsIdentifier field.1) :
    Lexes (recordLine category name fields).toList
      (.ident category :: .ident name :: .mark .equals :: .keyword .new :: .ident category ::
        .mark (.opening .round) ::
        (commaList (fields.map fun field =>
            [.ident field.1, .mark .equals, .stringLiteral field.2]) ++
          [.mark (.closing .round), .mark .semicolon])) := by
  have hline : (recordLine category name fields).toList = category.toList ++ ' ' ::
      (name.toList ++ ' ' :: '=' :: ' ' :: ('n' :: ['e', 'w'] ++ ' ' :: (category.toList ++ '(' ::
        ([',', ' '].intercalate (fields.map fun field => (textAttribute field).toList) ++
          [')', ';'])))) := by
    simp [recordLine, String.toList_append, String.toList_intercalate, Function.comp_def]
  have hparts : List.Forall₂ Delimited (fields.map fun field => (textAttribute field).toList)
      (fields.map fun field => [.ident field.1, .mark .equals, .stringLiteral field.2]) := by
    rw [List.forall₂_map_left_iff, List.forall₂_map_right_iff, List.forall₂_same]
    exact fun field hmem => delimited_textAttribute (hf field hmem)
  have hlist := (Delimited.joined hparts).append
    ((Delimited.nil.mark .semicolon).mark (.closing .round))
  have hcall := (hlist.mark (.opening .round)).ident hc rfl
  have hnew := @Delimited.word _ _ 'n' ' ' ['e', 'w'] (.inl rfl) rfl rfl hcall.blank
  have hname := (hnew.blank.mark .equals).blank.ident hn rfl
  rw [hline]
  exact (hname.blank.ident hc rfl).lexes

end StackHeap.Command
