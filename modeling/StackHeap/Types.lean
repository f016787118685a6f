import StackHeap.Number.Digits
import StackHeap.Number.Shortest

/-! # Types

* **Primitive types** hold values in place.  The integral ones have a range, the floating ones a
  largest magnitude.
* **Widening.**  A primitive type accepts itself.  The numeric ones form a ladder, `byte`,
  `short`, `int`, `long`, `float`, `double`, and accept every type further down; `char` enters
  the ladder at `int`.
* **Declared types** are primitive types, object categories by name, and arrays.  Objects and
  arrays live on the heap and accept only their own type. -/

namespace StackHeap

open Number

/-- The primitive types. -/
inductive Primitive where
  | boolean | char | byte | short | int | long | float | double | string
deriving DecidableEq, Repr, Inhabited

namespace Primitive

/-- The keyword of a primitive type. -/
def name : Primitive → String
  | boolean => "boolean"
  | char => "char"
  | byte => "byte"
  | short => "short"
  | int => "int"
  | long => "long"
  | float => "float"
  | double => "double"
  | string => "String"

/-- The primitive type with a keyword. -/
def ofName? : String → Option Primitive
  | "boolean" => some boolean
  | "char" => some char
  | "byte" => some byte
  | "short" => some short
  | "int" => some int
  | "long" => some long
  | "float" => some float
  | "double" => some double
  | "String" => some string
  | _ => none

@[simp] theorem ofName?_name (p : Primitive) : ofName? p.name = some p := by cases p <;> rfl

/-- The bits of an integral type, its sign among them. -/
def bits? : Primitive → Option Nat
  | byte => some 8
  | short => some 16
  | int => some 32
  | long => some 64
  | _ => none

/-- The smallest and the largest integer of an integral type. -/
def integerRange? (p : Primitive) : Option (Int × Int) :=
  p.bits?.map fun b => (-(pow2 (b - 1) : Int), (pow2 (b - 1) : Int) - 1)

/-- The largest magnitude of type `float`, `3.4028235e38`. -/
def floatCeiling : Magnitude :=
  match (⟨34028235, 31⟩ : Decimal).toBinary64 false with
  | .finite _ m => m
  | _ => .largest

/-- The largest magnitude of a floating type. -/
def ceiling? : Primitive → Option Magnitude
  | float => some floatCeiling
  | double => some .largest
  | _ => none

/-- Whether the values of a type are integers. -/
def isIntegral (p : Primitive) : Bool := p.bits?.isSome

/-- Whether the values of a type are binary64 numbers. -/
def isFloating (p : Primitive) : Bool := p = float || p = double

/-- The rung of a numeric type on the widening ladder. -/
def rung? : Primitive → Option Nat
  | byte => some 1
  | short => some 2
  | int => some 3
  | long => some 4
  | float => some 5
  | double => some 6
  | _ => none

/-- Whether a value of type `source` may be stored in a place of type `target`. -/
def accepts (target source : Primitive) : Bool :=
  target = source ||
    match target.rung?, source.rung? with
    | some t, some s => decide (s ≤ t)
    | some t, none => source = char && decide (3 ≤ t)
    | none, _ => false

end Primitive

/-- The type of a slot, of an array element or of a heap entry. -/
inductive DeclaredType where
  | primitive (p : Primitive)
  /-- An object category. -/
  | object (category : String)
  | array (element : DeclaredType)
deriving DecidableEq, Repr, Inhabited

namespace DeclaredType

/-- The type that a word names: a primitive type, or else an object category. -/
def ofName (name : String) : DeclaredType := (Primitive.ofName? name).elim (object name) primitive

/-- The text of a type. -/
def text : DeclaredType → String
  | primitive p => p.name
  | object category => category
  | array element => element.text ++ "[]"

/-- Whether slots of the type hold an address. -/
def isReference : DeclaredType → Bool
  | primitive _ => false
  | _ => true

/-- The primitive type that a type is. -/
def primitive? : DeclaredType → Option Primitive
  | primitive p => some p
  | _ => none

/-- Whether a value of type `source` may be stored in a place of type `target`. -/
def accepts : DeclaredType → DeclaredType → Bool
  | primitive target, primitive source => target.accepts source
  | object target, object source => target = source
  | array target, array source => target = source
  | _, _ => false

end DeclaredType

end StackHeap
