import StackHeap.Address
import StackHeap.Text.Escape
import StackHeap.Types

/-! # Values

What a slot, an object's field or an array element holds: a primitive value in place, the address
of a heap entry, or null.  Integers of every type are held alike, and so are the numbers of both
floating types. -/

namespace StackHeap

open Text Number

/-- A value. -/
inductive Value where
  | bool (b : Bool)
  | char (c : Char)
  | int (n : Int)
  | float (x : Binary64)
  | text (s : String)
  | objectRef (a : Address)
  | arrayRef (a : Address)
  | null
deriving DecidableEq, Repr, Inhabited

namespace Value

/-- The address that a value holds. -/
def referent? : Value → Option Address
  | objectRef a => some a
  | arrayRef a => some a
  | _ => none

/-- Whether a value is a reference, null among them. -/
def isReference : Value → Bool
  | objectRef _ => true
  | arrayRef _ => true
  | null => true
  | _ => false

/-- A value in the form that type `target` uses: integers and characters as numbers for a floating
type, characters by their code for an integral one, and everything else as it is. -/
def widen (target : Primitive) : Value → Value
  | int n => if target.isFloating then float (.ofInt n) else int n
  | char c =>
    if target.isFloating then float (.ofNat c.toNat)
    else if target.isIntegral then int c.toNat
    else char c
  | v => v

/-- The text of a value. -/
def display : Value → String
  | bool b => if b then "true" else "false"
  | char c => "'" ++ escape c.toString ++ "'"
  | int n => integerText n
  | float x => x.text
  | text s => "\"" ++ escape s ++ "\""
  | objectRef a => a.token
  | arrayRef a => a.token
  | null => "null"

end Value

/-- A field of an object. -/
structure Field where
  name : String
  type : Primitive
  value : Value
deriving DecidableEq, Repr, Inhabited

/-- An element of an array declaration: a value, or a variable to copy. -/
inductive Element where
  | value (v : Value)
  | variable (name : String)
deriving DecidableEq, Repr, Inhabited

end StackHeap
