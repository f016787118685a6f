import StackHeap.Command.Statement
import StackHeap.Typing.Error
import StackHeap.Value

/-! # Literals

A literal is typed by its tokens.

* **Against a type** (`checkPrimitive`): `true` and `false` for `boolean`, one character in single
  quotes for `char`, double quotes for `String`, a whole number with an optional sign within the
  range of an integral type, a decimal number with an optional sign within the ceiling of a
  floating one.  Digit strings are read exactly, whatever their length.
* **By itself** (`naturalType?`): a whole number is an `int` if it fits and a `long` otherwise, any
  other number a `double`.
* **For storage** (`checkAssignable`): a literal that is none of the target type counts as one of
  its natural type and is widened where the target accepts that type. -/

namespace StackHeap.Typing

open Text Number Command

/-- The lexemes of a text, without the end; none if the text cannot be read. -/
def lexemes? (cs : List Char) : Option (List Lexeme) :=
  (tokenize cs).toOption.map fun ts => (ts.map Token.lexeme).dropLast

/-- The sign and the digits of a number with an optional sign. -/
def signedNumber? : List Lexeme → Option (Bool × List Char)
  | [.number s] => some (false, s.toList)
  | [.mark .plus, .number s] => some (false, s.toList)
  | [.mark .minus, .number s] => some (true, s.toList)
  | _ => none

/-- A whole number as a value of an integral type with the given range.  The digits are read into a
word of 128 bits, one of them for the sign, and the value is kept in one of 64. -/
def checkInteger (type : Primitive) (range : Int × Int) (literal : String) (negative : Bool)
    (digits : List Char) : Except LiteralError Value :=
  if digits.isEmpty || !digits.all Char.isDigit then .error (.invalid type literal)
  else match ofDecimalDigitsBelow? (pow2 127) digits with
    | none => .error (.outOfRange type literal)
    | some magnitude =>
      let n : Int := if negative then -magnitude else magnitude
      if n < range.1 ∨ range.2 < n then .error (.outOfRange type literal)
      else .ok (.int (n.bmod (pow2 64)))

/-- A decimal number as a value of a floating type with the given ceiling. -/
def checkFloat (type : Primitive) (ceiling : Magnitude) (literal : String) (negative : Bool)
    (digits : List Char) : Except LiteralError Value :=
  match Decimal.ofNumeral? digits with
  | none => .error (.invalid type literal)
  | some d =>
    let x := d.toBinary64 negative
    if x.isWithin ceiling then .ok (.float x) else .error (.outOfRange type literal)

/-- Types lexemes against a primitive type; `literal` is the text they came from. -/
def checkLexemes (type : Primitive) (literal : String) (ls : List Lexeme) :
    Except LiteralError Value :=
  match type, ls with
  | _, [.keyword .null] => .error (.null type)
  | .boolean, [.keyword .yes] => .ok (.bool true)
  | .boolean, [.keyword .no] => .ok (.bool false)
  | .char, [.charLiteral s] =>
    match s.toList with
    | [c] => .ok (.char c)
    | _ => .error (.invalid type literal)
  | .string, [.stringLiteral s] => .ok (.text s)
  | _, _ =>
    match signedNumber? ls, type.integerRange?, type.ceiling? with
    | some (negative, digits), some range, _ => checkInteger type range literal negative digits
    | some (negative, digits), none, some ceiling => checkFloat type ceiling literal negative digits
    | _, _, _ => .error (.invalid type literal)

/-- Types a literal against a primitive type. -/
def checkPrimitive (type : Primitive) (cs : List Char) : Except LiteralError Value :=
  let literal := String.ofList (trim cs)
  match lexemes? (trim cs) with
  | none => .error (.invalid type literal)
  | some ls => checkLexemes type literal ls

/-- The type that a literal has by itself. -/
def naturalType? (cs : List Char) : Option Primitive := do
  match ← lexemes? (trim cs) with
  | [.keyword .yes] => some .boolean
  | [.keyword .no] => some .boolean
  | [.charLiteral _] => some .char
  | [.stringLiteral _] => some .string
  | ls =>
    let (_, digits) ← signedNumber? ls
    if digits.all Char.isDigit then
      some (if (checkPrimitive .int cs).toBool then .int else .long)
    else (Decimal.ofNumeral? digits).map fun _ => .double

/-- Types a literal for storage in a place of a primitive type. -/
def checkAssignable (type : Primitive) (cs : List Char) : Except LiteralError Value :=
  match checkPrimitive type cs with
  | .ok v => .ok v
  | .error (.null p) => .error (.null p)
  | .error e =>
    match naturalType? cs with
    | some natural =>
      if natural ≠ type ∧ type.accepts natural then
        (checkPrimitive natural cs).map (Value.widen type)
      else .error e
    | none => .error e

/-- Types a literal against the type that a word names; types that are not primitive have no
literal but null. -/
def checkScalar (typeName : String) (cs : List Char) : Except TypeError Value :=
  match Primitive.ofName? typeName with
  | some type => (checkPrimitive type cs).mapError .literal
  | none => if trim cs = "null".toList then .ok .null else .error (.unknownType typeName)

end StackHeap.Typing
