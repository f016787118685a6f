import StackHeap.Number.Digits
import StackHeap.Value

/-! # Memory errors

Why the memory refuses an operation.  All but the last cause are the user's; a `broken` memory
would mean that a reference count or an address is wrong. -/

namespace StackHeap.Store

open Number

/-- What is offered to a slot. -/
inductive Offer where
  | type (t : DeclaredType)
  | reference
  | null
  | literal (text : String)
deriving DecidableEq, Repr

/-- The text of an offer. -/
def Offer.text : Offer → String
  | type t => t.text
  | reference => "a reference"
  | null => "null"
  | literal text => "literal " ++ text

/-- What is wrong with a broken memory. -/
inductive Fault where
  | dangling (a : Address)
  | negativeCount (a : Address)
  | allocatedTwice (a : Address)
  | misfit (slot : String) (type : DeclaredType) (value : Value)
  | miscounted (a : Address) (stored counted : Nat)
deriving DecidableEq, Repr

/-- The text of a fault. -/
def Fault.message : Fault → String
  | dangling a => "dangling reference to " ++ a.token
  | negativeCount a => "negative reference count at " ++ a.token
  | allocatedTwice a => "address " ++ a.token ++ " allocated twice"
  | misfit slot type value =>
    "slot '" ++ slot ++ "' of type " ++ type.text ++ " holds " ++ value.display
  | miscounted a stored counted =>
    a.token ++ " has ref_count " ++ naturalText stored ++ " but " ++ naturalText counted ++ " holders"

/-- Why the memory refuses an operation. -/
inductive MemoryError where
  | duplicateVariable (name frame : String)
  | undefinedVariable (name frame : String)
  | incompatible (target : String) (type : DeclaredType) (offer : Offer)
  | rootFrameExit (frame : String)
  | unknownFrame (id : Nat)
  | stackOverflow (limit : Nat)
  | outOfHeap (limit : Nat)
  | broken (fault : Fault)
deriving DecidableEq, Repr

/-- The text of a memory error. -/
def MemoryError.message : MemoryError → String
  | duplicateVariable name frame =>
    "variable '" ++ name ++ "' is already declared in frame '" ++ frame ++ "'"
  | undefinedVariable name frame => "undeclared variable '" ++ name ++ "' in frame '" ++ frame ++ "'"
  | incompatible target type offer =>
    "cannot assign " ++ offer.text ++ " to '" ++ target ++ "' of type " ++ type.text
  | rootFrameExit frame => "cannot leave the root frame '" ++ frame ++ "'"
  | unknownFrame id => "unknown frame #" ++ naturalText id
  | stackOverflow limit => "stack overflow: frame limit of " ++ naturalText limit ++ " reached"
  | outOfHeap limit => "out of heap: limit of " ++ naturalText limit ++ " live entries reached"
  | broken fault => "invariant violation: " ++ fault.message

end StackHeap.Store
