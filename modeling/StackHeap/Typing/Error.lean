import StackHeap.Command.SyntaxError
import StackHeap.Types

/-! # Typing errors

Why a well-formed command has no type.  The errors of a single literal are a type of their own,
because attributes and elements pass them on as their reason. -/

namespace StackHeap.Typing

open Number

/-- Why a literal has no value of a type. -/
inductive LiteralError where
  | invalid (type : Primitive) (literal : String)
  | outOfRange (type : Primitive) (literal : String)
  | null (type : Primitive)
deriving DecidableEq, Repr

/-- The texts of the smallest and the largest value of a numeric type. -/
def rangeTexts (p : Primitive) : String × String :=
  match p.integerRange?, p.ceiling? with
  | some (low, high), _ => (integerText low, integerText high)
  | none, some m => ((Binary64.finite true m).scientificText, (Binary64.finite false m).scientificText)
  | none, none => ("", "")

/-- The text of a literal's error. -/
def LiteralError.message : LiteralError → String
  | invalid type literal => "'" ++ literal ++ "' is not a valid " ++ type.name ++ " literal"
  | outOfRange type literal =>
    literal ++ " is out of range for " ++ type.name ++ " (" ++ (rangeTexts type).1 ++ " to " ++
      (rangeTexts type).2 ++ ")"
  | null type => "null cannot be stored in primitive type " ++ type.name

/-- What is wrong with an attribute. -/
inductive AttributeFault where
  | malformed (e : Command.SyntaxError)
  | unknownType (name : String)
  | noType (value : String)
  | literal (e : LiteralError)
deriving DecidableEq, Repr

/-- The text of an attribute's fault. -/
def AttributeFault.message : AttributeFault → String
  | malformed e => e.message
  | unknownType name => "unknown attribute type '" ++ name ++ "'"
  | noType value => "cannot infer a type for '" ++ value ++ "'"
  | literal e => e.message

/-- What is wrong with an element. -/
inductive ElementFault where
  | notReference (text : String)
  | literal (e : LiteralError)
deriving DecidableEq, Repr

/-- The text of an element's fault. -/
def ElementFault.message : ElementFault → String
  | notReference text => "expected a variable name or null, found '" ++ text ++ "'"
  | literal e => e.message

/-- Why a well-formed command has no type. -/
inductive TypeError where
  | unknownType (name : String)
  | literal (e : LiteralError)
  | notConstructible (type : String)
  | constructorMismatch (declared constructed : String)
  | invalidAttribute (owner text : String) (fault : AttributeFault)
  | duplicateAttribute (owner name : String)
  | invalidElement (type : String) (index : Nat) (fault : ElementFault)
deriving DecidableEq, Repr

/-- The text of a typing error. -/
def TypeError.message : TypeError → String
  | unknownType name => "unknown type '" ++ name ++ "'"
  | literal e => e.message
  | notConstructible type => "primitive type '" ++ type ++ "' cannot be constructed"
  | constructorMismatch declared constructed =>
    "constructor 'new " ++ constructed ++ "' does not match declared type " ++ declared
  | invalidAttribute owner text fault =>
    "invalid attribute '" ++ text ++ "' of " ++ owner ++ ": " ++ fault.message
  | duplicateAttribute owner name =>
    "duplicate attribute '" ++ name ++ "' in " ++ owner
  | invalidElement type index fault =>
    "invalid element #" ++ naturalText index ++ " of " ++ type ++ "[]: " ++ fault.message

end StackHeap.Typing
