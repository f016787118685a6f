import StackHeap.Store.Error
import StackHeap.Typing.Declaration

/-! # Reports

What a command did, and why one did nothing.  Every report is told in a single line. -/

namespace StackHeap.Session

open Number Store Typing

/-- What a command did. -/
inductive Report where
  | entered (frame : String) (id : Nat)
  | left (frame : String) (collected : List Address)
  | declared (type name value : String) (address : Address)
  | constructed (category name : String) (fields : Nat) (address : Address)
  | listed (elementType name : String) (elements : Nat) (address : Address)
  | assigned (target value : String) (collected : List Address)
  | assignedNew (target category : String) (address : Address)
deriving DecidableEq, Repr

/-- What is told about collected entries. -/
def collectedText (collected : List Address) : String :=
  if collected.isEmpty then "" else "; collected " ++ ", ".intercalate (collected.map Address.token)

/-- The text of a report. -/
def Report.message : Report → String
  | entered frame id => "entered frame '" ++ frame ++ "' (#" ++ naturalText id ++ ")"
  | left frame collected => "left frame '" ++ frame ++ "'" ++ collectedText collected
  | declared type name value a =>
    "declared " ++ type ++ " " ++ name ++ " = " ++ value ++ " at " ++ a.token
  | constructed category name fields a =>
    "constructed " ++ category ++ " with " ++ naturalText fields ++ " attribute" ++
      (if fields = 1 then "" else "s") ++ " at " ++ a.token ++ " for '" ++ name ++ "'"
  | listed elementType name elements a =>
    "constructed " ++ elementType ++ "[" ++ naturalText elements ++ "] at " ++ a.token ++
      " for '" ++ name ++ "'"
  | assigned target value collected => target ++ " = " ++ value ++ collectedText collected
  | assignedNew target category a => target ++ " = new " ++ category ++ " at " ++ a.token

/-- Why a command did nothing. -/
inductive CommandError where
  | input (e : InputError)
  | memory (e : MemoryError)
deriving DecidableEq, Repr

/-- The text of a command's error. -/
def CommandError.message : CommandError → String
  | input e => e.message
  | memory e => e.message

end StackHeap.Session
