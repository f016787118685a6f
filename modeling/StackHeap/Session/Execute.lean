import StackHeap.Session.Report
import StackHeap.Store.Memory

/-! # Carrying out commands

A line is told apart, checked and typed, and only then changes the memory.  Variables are those of
the innermost frame; the frames below are out of reach.

The right-hand side of an assignment is a variable to copy, null, a new object, or a literal that
is typed against the variable assigned to.  The variable is looked up before the right-hand side
is read. -/

namespace StackHeap.Session

open Command Store Typing

/-- Commands on the memory. -/
abbrev CommandM := EStateM CommandError Memory

/-- An operation on the memory as a command. -/
def onMemory {α : Type} (op : MemoryM α) : CommandM α := fun m =>
  match op m with
  | .ok a m => .ok a m
  | .error e m => .error (.memory e) m

/-- The outcome of a check as a command. -/
def checked {α : Type} (outcome : Except InputError α) : CommandM α :=
  match outcome with
  | .ok a => return a
  | .error e => throw (.input e)

/-- The addresses of entries. -/
def addresses (es : List Entry) : List Address := es.map (·.address)

/-- Carries out a declaration in a frame. -/
def declare (id : Nat) (d : TypedDeclaration) : MemoryM Report :=
  match d.initializer with
  | .scalar type value => do
    let a ← Memory.declareScalar id d.name type value
    return .declared type.name d.name value.display a
  | .null type => do
    let a ← Memory.declareNull id d.name type
    return .declared type.text d.name "null" a
  | .copy type source => do
    let a ← Memory.declareCopy id d.name type source
    return .declared type.text d.name source a
  | .object category fields => do
    let a ← Memory.declareObject id d.name category fields
    return .constructed category d.name fields.length a
  | .array elementType elements => do
    let a ← Memory.declareArray id d.name elementType elements
    return .listed elementType.text d.name elements.length a

/-- Assigns a literal to a variable of a frame. -/
def assignLiteral (id : Nat) (target : String) (type : DeclaredType) (text : List Char) :
    CommandM Report :=
  match type.primitive? with
  | none => throw (.memory (.incompatible target type (.literal (String.ofList text))))
  | some p => do
    let value ← checked ((checkAssignable p text).mapError fun e => .illTyped (.literal e))
    onMemory (Memory.assignLiteral id target p value)
    return .assigned target value.display []

/-- Assigns a new object to a variable of a frame. -/
def assignNew (id : Nat) (target category : String) (attributes : List Char) : CommandM Report := do
  if (Primitive.ofName? category).isSome then
    throw (.input (.illTyped (.notConstructible category)))
  let fields ← checked ((checkObject category attributes).mapError .illTyped)
  let a ← onMemory (Memory.assignNew id target category fields)
  return .assignedNew target category a

/-- Assigns a right-hand side to a variable of the innermost frame. -/
def assign (target : String) (value : List Char) : CommandM Report := do
  let id := (← get).stack.current.id
  let t ← onMemory (Memory.ask (·.lookup id target))
  match ← checked ((rightSide value).mapError .malformed) with
  | .variable source => do
    let collected ← onMemory (Memory.assign id target source)
    return .assigned target source (addresses collected)
  | .null => do
    let collected ← onMemory (Memory.assignNull id target)
    return .assigned target "null" (addresses collected)
  | .construct category attributes => assignNew id target category attributes
  | .literal text => assignLiteral id target t.type text

/-- Carries out a command line. -/
def execute (line : List Char) : CommandM Report := do
  match ← checked ((classify line).mapError .malformed) with
  | .enter name => do
    let id ← onMemory (Memory.enter name)
    return .entered name id
  | .leave => do
    let (frame, collected) ← onMemory Memory.leave
    return .left frame.name (addresses collected)
  | .assignment target value => assign target value
  | .declaration => do
    let d ← checked (process line)
    onMemory (declare (← get).stack.current.id d)

end StackHeap.Session
