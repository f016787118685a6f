import StackHeap.Command.Token
import StackHeap.Number.Digits
import StackHeap.Text.Blank

/-! # Reading tokens

A line is read from left to right.  Blanks outside quotes separate tokens and are dropped; every
other character belongs to exactly one token.

* **Words** start with an ASCII letter or an underscore and run on over letters, digits and
  underscores.
* **Numbers** start with a digit, or with a point before a digit, and run on over letters,
  digits, underscores and points.  A sign right after `e` or `E` belongs to the number when a
  digit follows it.
* **Literals** are quoted.  A backslash starts an escape: `n`, `t`, `r`, `0`, a backslash, or
  the quote that encloses the literal.
* **Marks** are single characters.

A reader returns a `Reading` of its input: what it took and what it left, with the proof that
the two joined are the input. -/

namespace StackHeap.Command

open Text

/-! ### Faults -/

/-- What makes a line unreadable. -/
inductive LexFault where
  | unexpectedCharacter (c : Char)
  | unterminatedString
  | unterminatedChar
  | endInEscape
  | unknownEscape (c : Char)
deriving DecidableEq, Repr

/-- The text of a fault. -/
def LexFault.message : LexFault → String
  | unexpectedCharacter c => "Unexpected character: '" ++ c.toString ++ "'"
  | unterminatedString => "Unterminated string literal"
  | unterminatedChar => "Unterminated character literal"
  | endInEscape => "Unexpected end of input in escape sequence"
  | unknownEscape c => "Unknown escape sequence: \\" ++ c.toString

/-- A fault and the offset at which it was found. -/
structure LexError where
  fault : LexFault
  offset : Nat
deriving DecidableEq, Repr

/-- The place of the fault as told to the user, counted from one. -/
def LexError.position (e : LexError) : Nat := e.offset + 1

/-- The text of a fault with its place. -/
def LexError.message (e : LexError) : String :=
  e.fault.message ++ " at position " ++ Number.naturalText e.position

/-! ### Readers -/

/-- A value read off the start of a text. -/
structure Reading (α : Type) (cs : List Char) where
  value : α
  taken : List Char
  rest : List Char
  joined : taken ++ rest = cs

namespace Reading

variable {α : Type} {cs : List Char}

theorem length_rest_le (r : Reading α cs) : r.rest.length ≤ cs.length := by
  have h := congrArg List.length r.joined
  rw [List.length_append] at h
  omega

/-- The same reading after one more character. -/
def cons {β : Type} (c : Char) (f : α → β) (r : Reading α cs) : Reading β (c :: cs) :=
  ⟨f r.value, c :: r.taken, r.rest, by rw [List.cons_append, r.joined]⟩

end Reading

/-- Whether a character may stand in a word after its first. -/
def isWordChar (c : Char) : Bool := c.isAlphanum || c = '_'

/-- The longest run of characters that satisfy a test. -/
def readWhile (p : Char → Bool) (cs : List Char) : Reading Unit cs :=
  ⟨(), cs.takeWhile p, cs.dropWhile p, List.takeWhile_append_dropWhile⟩

/-- Whether the text starts with a sign and a digit. -/
def startsSigned : List Char → Bool
  | s :: d :: _ => (s = '+' || s = '-') && d.isDigit
  | _ => false

/-- The rest of a number; with `signed`, the next character is the sign of an exponent. -/
def readNumber (signed : Bool) : (cs : List Char) → Reading Unit cs
  | [] => ⟨(), [], [], rfl⟩
  | c :: cs =>
    if signed then (readNumber false cs).cons c id
    else if isWordChar c || c = '.' then
      (readNumber ((c = 'e' || c = 'E') && startsSigned cs) cs).cons c id
    else ⟨(), [], c :: cs, rfl⟩

/-- The character that a backslash and `c` stand for between two `quote`s. -/
def unescape? (quote c : Char) : Option Char :=
  match c with
  | 'n' => some '\n'
  | 't' => some '\t'
  | 'r' => some '\r'
  | '0' => some '\x00'
  | '\\' => some '\\'
  | c => if c = quote then some c else none

/-- The contents of a literal, decoded, through the closing quote.  `unclosed` is the error for a
line that ends first, and `offset` the place of the next character. -/
def readQuoted (quote : Char) (unclosed : LexError) (offset : Nat) :
    (cs : List Char) → Except LexError (Reading (List Char) cs)
  | [] => .error unclosed
  | '\\' :: [] => .error ⟨.endInEscape, offset + 1⟩
  | '\\' :: c :: cs =>
    match unescape? quote c with
    | none => .error ⟨.unknownEscape c, offset + 1⟩
    | some d =>
      (readQuoted quote unclosed (offset + 1 + c.utf8Size) cs).map fun r =>
        (r.cons c (d :: ·)).cons '\\' id
  | c :: cs =>
    if c = quote then .ok ⟨[], [c], cs, rfl⟩
    else (readQuoted quote unclosed (offset + c.utf8Size) cs).map fun r => r.cons c (c :: ·)

/-- A word is reserved or a name. -/
def wordLexeme (word : String) : Lexeme :=
  (Keyword.ofName? word).elim (.ident word) .keyword

/-- The lexeme that starts with the character `c` at `start`, read from the text after `c`. -/
def readLexeme (start : Nat) (c : Char) (cs : List Char) : Except LexError (Reading Lexeme cs) :=
  if c = '"' then
    (readQuoted '"' ⟨.unterminatedString, start⟩ (start + 1) cs).map fun r =>
      { r with value := .stringLiteral (String.ofList r.value) }
  else if c = '\'' then
    (readQuoted '\'' ⟨.unterminatedChar, start⟩ (start + 1) cs).map fun r =>
      { r with value := .charLiteral (String.ofList r.value) }
  else if c.isDigit || (c = '.' && (cs.head?.any Char.isDigit)) then
    let r := readNumber false cs
    .ok { r with value := .number (String.ofList (c :: r.taken)) }
  else if c.isAlpha || c = '_' then
    let r := readWhile isWordChar cs
    .ok { r with value := wordLexeme (String.ofList (c :: r.taken)) }
  else match Mark.ofChar? c with
    | some m => .ok ⟨.mark m, [], cs, rfl⟩
    | none => .error ⟨.unexpectedCharacter c, start⟩

/-- The tokens of a text that starts at `offset`. -/
def tokensFrom (offset : Nat) : List Char → Except LexError (List Token)
  | [] => .ok [⟨.finish, ⟨offset, offset⟩⟩]
  | c :: cs =>
    if isBlank c then tokensFrom (offset + c.utf8Size) cs
    else match readLexeme offset c cs with
      | .error e => .error e
      | .ok r =>
        let stop := offset + byteLength (c :: r.taken)
        (tokensFrom stop r.rest).map (⟨r.value, ⟨offset, stop⟩⟩ :: ·)
termination_by cs => cs.length
decreasing_by
  · exact Nat.lt_succ_self _
  · exact Nat.lt_succ_of_le r.length_rest_le

/-- The tokens of a line. -/
def tokenize (cs : List Char) : Except LexError (List Token) := tokensFrom 0 cs

end StackHeap.Command
