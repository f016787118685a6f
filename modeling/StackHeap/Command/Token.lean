import StackHeap.Text.Bytes
import StackHeap.Text.Escape

/-! # Tokens of the command language

A command line is read as a list of tokens: lexemes with the byte range they were read from.
The list ends with one `finish` at the end of the line.  `Lexeme.describe` is the name of a
lexeme in messages; the texts of quoted literals are escaped there, so a message stays on one
line. -/

namespace StackHeap.Command

open Text

/-- The reserved words. -/
inductive Keyword where
  | new | enter | leave | null | yes | no
deriving DecidableEq, Repr

namespace Keyword

/-- The spelling of a reserved word. -/
def name : Keyword → String
  | new => "new"
  | enter => "enter"
  | leave => "leave"
  | null => "null"
  | yes => "true"
  | no => "false"

/-- The reserved word with a spelling. -/
def ofName? : String → Option Keyword
  | "new" => some new
  | "enter" => some enter
  | "leave" => some leave
  | "null" => some null
  | "true" => some yes
  | "false" => some no
  | _ => none

@[simp] theorem ofName?_name (k : Keyword) : ofName? k.name = some k := by cases k <;> rfl

end Keyword

/-- The three kinds of brackets. -/
inductive Bracket where
  | round | curly | square
deriving DecidableEq, Repr

/-- The opening character of a bracket. -/
def Bracket.opener : Bracket → Char
  | round => '('
  | curly => '\x7b'
  | square => '['

/-- The closing character of a bracket. -/
def Bracket.closer : Bracket → Char
  | round => ')'
  | curly => '\x7d'
  | square => ']'

/-- Lexemes of one character. -/
inductive Mark where
  | plus | minus | equals | semicolon | comma
  | opening (b : Bracket)
  | closing (b : Bracket)
deriving DecidableEq, Repr

namespace Mark

/-- The character of a mark. -/
def char : Mark → Char
  | plus => '+'
  | minus => '-'
  | equals => '='
  | semicolon => ';'
  | comma => ','
  | opening b => b.opener
  | closing b => b.closer

/-- The mark with a character. -/
def ofChar? : Char → Option Mark
  | '+' => some plus
  | '-' => some minus
  | '=' => some equals
  | ';' => some semicolon
  | ',' => some comma
  | '(' => some (opening .round)
  | ')' => some (closing .round)
  | '\x7b' => some (opening .curly)
  | '\x7d' => some (closing .curly)
  | '[' => some (opening .square)
  | ']' => some (closing .square)
  | _ => none

@[simp] theorem ofChar?_char (m : Mark) : ofChar? m.char = some m := by
  rcases m with _ | _ | _ | _ | _ | b | b <;> first | rfl | (cases b <;> rfl)

end Mark

/-- What a token is, without its place. -/
inductive Lexeme where
  /-- Digits, and whatever letters, points and exponent signs are glued to them. -/
  | number (text : String)
  /-- The decoded contents between single quotes, of any length. -/
  | charLiteral (text : String)
  /-- The decoded contents between double quotes. -/
  | stringLiteral (text : String)
  | ident (name : String)
  | keyword (k : Keyword)
  | mark (m : Mark)
  /-- The end of the line. -/
  | finish
deriving DecidableEq, Repr, Inhabited

/-- The name of a lexeme in messages. -/
def Lexeme.describe : Lexeme → String
  | number text => "number literal " ++ text
  | charLiteral text => "char literal '" ++ escape text ++ "'"
  | stringLiteral text => "string literal \"" ++ escape text ++ "\""
  | ident name => "identifier '" ++ name ++ "'"
  | keyword k => "'" ++ k.name ++ "'"
  | mark m => "'" ++ m.char.toString ++ "'"
  | finish => "end of input"

/-- A lexeme and the range of bytes it was read from. -/
structure Token where
  lexeme : Lexeme
  span : Span
deriving DecidableEq, Repr, Inhabited

end StackHeap.Command
