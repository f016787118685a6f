import StackHeap.Typing.Literal

/-! # Attribute and element lists

* **Attributes** of a constructor become the fields of an object, in order.  An attribute has the
  type it names, which must be primitive, or else its value's natural type; names may not repeat.
* **Elements** of an array are literals of a primitive element type, null for any other, or names
  of variables, which are looked up when the array is made.

The first bad attribute or element fails the whole list. -/

namespace StackHeap.Typing

open Text Command

/-- The type of an attribute. -/
def attributeType (a : Attribute) : Except AttributeFault Primitive :=
  match a.typeName with
  | some name =>
    match Primitive.ofName? name with
    | some p => .ok p
    | none => .error (.unknownType name)
  | none =>
    match naturalType? a.value with
    | some p => .ok p
    | none => .error (.noType (String.ofList a.value))

/-- The field that the text of an attribute describes. -/
def readField (cs : List Char) : Except AttributeFault Field := do
  let a ← (Attribute.ofText cs).mapError .malformed
  let type ← attributeType a
  let value ← (checkPrimitive type a.value).mapError .literal
  return ⟨a.name, type, value⟩

/-- The fields of the attributes in a list, after those in `done`. -/
def readFields (owner : String) (done : List Field) : List (List Char) → Except TypeError (List Field)
  | [] => .ok done
  | part :: parts => do
    let field ← (readField part).mapError (.invalidAttribute owner (String.ofList (trim part)))
    if done.any (·.name = field.name) then .error (.duplicateAttribute owner field.name)
    else readFields owner (done ++ [field]) parts

/-- The fields of an object from the text of its attributes. -/
def checkObject (owner : String) (cs : List Char) : Except TypeError (List Field) :=
  readFields owner [] (splitTopLevel cs)

/-- The element that a text describes. -/
def readElement (type : DeclaredType) (cs : List Char) : Except ElementFault Element :=
  match type.primitive?, rightSide cs with
  | _, .ok (.variable name) => .ok (.variable name)
  | some p, _ => ((checkAssignable p cs).map .value).mapError .literal
  | none, .ok .null => .ok (.value .null)
  | none, _ => .error (.notReference (String.ofList (trim cs)))

/-- The elements in a list from the `index`-th on. -/
def readElements (elementType : String) (index : Nat) :
    List (List Char) → Except TypeError (List Element)
  | [] => .ok []
  | part :: parts => do
    let e ← (readElement (.ofName elementType) part).mapError (.invalidElement elementType index)
    let es ← readElements elementType (index + 1) parts
    return e :: es

/-- The elements of an array from their text. -/
def checkArray (elementType : String) (cs : List Char) : Except TypeError (List Element) :=
  readElements elementType 1 (splitTopLevel cs)

end StackHeap.Typing
