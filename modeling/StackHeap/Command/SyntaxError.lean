import StackHeap.Command.Lexer

/-! # Syntax errors

Why a line is not a command.  A constructor holds what its message tells; a place is a range of
the line, told as the position of its first byte. -/

namespace StackHeap.Command

open Text Number

/-- Why a line is not a command. -/
inductive SyntaxError where
  | empty
  | missingTerminator
  | lex (e : LexError)
  | expected (what : String) (found : Token)
  | invalidIdentifier (what : String) (found : Token)
  | emptyValue
  | chainedAssignment (place : Span)
  | charLiteral (found : String)
  | emptyAttributeList
  | emptyAttribute (index : Nat)
  | malformedAttribute (text : String)
  | emptyArray
  | emptyElement (index : Nat)
  | unclosed (bracket : Bracket) (place : Span)
  | trailingTokens (found : Token)
deriving DecidableEq, Repr

namespace SyntaxError

/-- A place in a message. -/
def atPosition (s : Span) : String := " at position " ++ naturalText s.position

/-- The text of a syntax error. -/
def message : SyntaxError → String
  | empty => "empty command"
  | missingTerminator => "missing terminator ';'"
  | lex e => e.message
  | expected what found =>
    "expected " ++ what ++ ", found " ++ found.lexeme.describe ++ atPosition found.span
  | invalidIdentifier what found =>
    "invalid identifier: expected " ++ what ++ ", found " ++ found.lexeme.describe ++
      atPosition found.span
  | emptyValue => "missing value after '='"
  | chainedAssignment place =>
    "unexpected '=' in value" ++ atPosition place ++ "; chained assignment is not supported"
  | charLiteral found =>
    "char value must be exactly one character in single quotes, found " ++ found
  | emptyAttributeList => "empty attribute list; a constructor needs at least one attribute"
  | emptyAttribute index => "empty attribute #" ++ naturalText index ++ " in attribute list"
  | malformedAttribute text =>
    "malformed attribute '" ++ text ++ "'; expected 'Type name = value'"
  | emptyArray => "empty element list; an array needs at least one element"
  | emptyElement index => "empty array element #" ++ naturalText index
  | unclosed bracket place => "unclosed '" ++ bracket.opener.toString ++ "'" ++ atPosition place
  | trailingTokens found =>
    "unexpected " ++ found.lexeme.describe ++ " after ';'" ++ atPosition found.span

end SyntaxError

end StackHeap.Command
