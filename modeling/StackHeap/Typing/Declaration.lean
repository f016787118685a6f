import StackHeap.Typing.Composite

/-! # Typed declarations

A declaration is checked for its shape and then typed; only then may it reach the memory.  A
right-hand side that is a single name is always a copy of a variable, whatever the type; the
variable is looked up when the declaration is carried out. -/

namespace StackHeap.Typing

open Command

/-- What is wrong with a command before it reaches the memory. -/
inductive InputError where
  | malformed (e : SyntaxError)
  | illTyped (e : TypeError)
deriving DecidableEq, Repr

/-- The text of an input error. -/
def InputError.message : InputError → String
  | malformed e => "syntax error: " ++ e.message
  | illTyped e => "type error: " ++ e.message

/-- What a declaration puts into its slot. -/
inductive Initializer where
  | scalar (type : Primitive) (value : Value)
  | null (type : DeclaredType)
  | copy (type : DeclaredType) (source : String)
  | object (category : String) (fields : List Field)
  | array (elementType : DeclaredType) (elements : List Element)
deriving DecidableEq, Repr

/-- A declaration that may be carried out. -/
structure TypedDeclaration where
  name : String
  initializer : Initializer
deriving DecidableEq, Repr

/-- The initializer of a scalar declaration. -/
def scalarInitializer (typeName : String) (cs : List Char) : Except InputError Initializer := do
  let type := DeclaredType.ofName typeName
  match type.primitive?, ← (rightSide cs).mapError .malformed with
  | _, .variable source => .ok (.copy type source)
  | some p, _ => ((checkAssignable p cs).map (.scalar p)).mapError fun e => .illTyped (.literal e)
  | none, .null => .ok (.null type)
  | none, _ => .error (.illTyped (.unknownType typeName))

/-- The initializer of an object declaration. -/
def objectInitializer (typeName : String) (constructor? : Option String) (attributes : List Char) :
    Except TypeError Initializer :=
  if (Primitive.ofName? typeName).isSome then .error (.notConstructible typeName)
  else match constructor?.filter (· ≠ typeName) with
    | some constructed => .error (.constructorMismatch typeName constructed)
    | none => (checkObject typeName attributes).map (.object typeName)

/-- The initializer of a declaration. -/
def initializer : Declaration → Except InputError Initializer
  | .scalar typeName _ value => scalarInitializer typeName value
  | .object typeName _ constructor? attributes =>
    (objectInitializer typeName constructor? attributes).mapError .illTyped
  | .array elementType _ elements =>
    ((checkArray elementType elements).map (.array (.ofName elementType))).mapError .illTyped

/-- Checks a declaration line for its shape and then types it. -/
def process (line : List Char) : Except InputError TypedDeclaration := do
  let d ← (checkDeclaration line).mapError .malformed
  let i ← initializer d
  return ⟨d.name, i⟩

/-- What keeps a line from being a declaration. -/
def objection? (line : List Char) : Option InputError :=
  match process line with
  | .ok _ => none
  | .error e => some e

end StackHeap.Typing
