import StackHeap.Config
import StackHeap.Store.Heap
import StackHeap.Store.Stack

/-! # The memory

The memory is a stack, a heap and a supply of addresses.  Every slot and every heap entry gets a
fresh address.  Each reference that a slot or an array element holds counts as one holder of the
entry it refers to.

* **Declarations** add a slot to a frame.  A new object or array starts with the slot as its only
  holder; references copied into a slot or into an array gain a holder.
* **Assignments** change the value of a slot.  Where a reference is replaced, the old entry is
  released before the new one is retained, and nothing happens at all if the two are the same.
* **Scopes.**  Entering pushes an empty frame.  Leaving releases every reference of the innermost
  frame in declaration order and pops it; the root frame stays.

Names, types and limits are checked before anything changes. -/

namespace StackHeap.Store

/-- The memory. -/
structure Memory where
  stack : Stack
  heap : Heap
  addresses : Address.Supply := {}
  /-- The largest number of frames. -/
  maxFrames : Nat
deriving DecidableEq, Repr, Inhabited

/-- Operations on the memory. -/
abbrev MemoryM := EStateM MemoryError Memory

namespace Memory

/-- The memory at the start of a run. -/
def new (config : Config) : Memory where
  stack := .new config.rootFrame
  heap := { limit := config.maxHeapEntries }
  maxFrames := config.maxFrames

/-! ### Parts of the memory -/

/-- An operation on the heap of the memory. -/
def onHeap {α : Type} (op : HeapM α) : MemoryM α := fun m =>
  match op m.heap with
  | .ok a h => .ok a { m with heap := h }
  | .error e h => .error e { m with heap := h }

/-- Hands out an address. -/
def freshAddress : MemoryM Address := fun m =>
  .ok m.addresses.next { m with addresses := m.addresses.advance }

/-- The frame with a number. -/
def frame (m : Memory) (id : Nat) : Except MemoryError Frame :=
  match m.stack.frame? id with
  | some f => .ok f
  | none => .error (.unknownFrame id)

/-- The slot of a variable in a frame. -/
def lookup (m : Memory) (id : Nat) (name : String) : Except MemoryError Slot := do
  let f ← m.frame id
  match f.slot? name with
  | some s => .ok s
  | none => .error (.undefinedVariable name f.name)

/-- What a question about the memory answers. -/
def ask {α : Type} (question : Memory → Except MemoryError α) : MemoryM α := fun m =>
  match question m with
  | .ok a => .ok a m
  | .error e => .error e m

/-- Requires that a name is free in a frame. -/
def requireFree (m : Memory) (id : Nat) (name : String) : Except MemoryError Unit := do
  let f ← m.frame id
  if (f.slot? name).isSome then .error (.duplicateVariable name f.name) else .ok ()

/-- Requires room for one more heap entry. -/
def requireRoom (m : Memory) : Except MemoryError Unit :=
  if m.heap.hasRoom 1 then .ok () else .error (.outOfHeap m.heap.limit)

/-- Requires that a type accepts what is offered to a target. -/
def requireAccepts (target : String) (type source : DeclaredType) : Except MemoryError Unit :=
  if type.accepts source then .ok () else .error (.incompatible target type (.type source))

/-- Adds a slot with a fresh address to a frame. -/
def pushSlot (id : Nat) (name : String) (type : DeclaredType) (value : Value) : MemoryM Address := do
  let a ← freshAddress
  let _ ← ask (·.frame id)
  modify fun m => { m with stack := m.stack.update id (·.push ⟨a, name, type, value⟩) }
  return a

/-! ### Declarations -/

/-- Declares a primitive variable and returns its address. -/
def declareScalar (id : Nat) (name : String) (type : Primitive) (value : Value) :
    MemoryM Address := do
  ask (·.requireFree id name)
  if value.isReference then throw (.incompatible name (.primitive type) .reference)
  pushSlot id name (.primitive type) (value.widen type)

/-- Declares a reference variable that refers to nothing and returns its address. -/
def declareNull (id : Nat) (name : String) (type : DeclaredType) : MemoryM Address := do
  ask (·.requireFree id name)
  if !type.isReference then throw (.incompatible name type .null)
  pushSlot id name type .null

/-- Makes an object, declares a variable that refers to it, and returns the object's address. -/
def declareObject (id : Nat) (name : String) (category : String) (fields : List Field) :
    MemoryM Address := do
  ask (·.requireFree id name)
  ask (·.requireRoom)
  let a ← freshAddress
  onHeap (Heap.allocate a (.object category) (.object fields))
  let _ ← pushSlot id name (.object category) (.objectRef a)
  return a

/-- The name of an element in messages. -/
def elementName (array : String) (index : Nat) : String :=
  array ++ "[" ++ Number.naturalText index ++ "]"

/-- The values of the elements of an array, from the `index`-th on; variables are looked up in a
frame and copied. -/
def elementValues (m : Memory) (id : Nat) (array : String) (type : DeclaredType) (index : Nat) :
    List Element → Except MemoryError (List Value)
  | [] => .ok []
  | .value v :: es => do
    let vs ← m.elementValues id array type (index + 1) es
    return v :: vs
  | .variable source :: es => do
    let s ← m.lookup id source
    requireAccepts (elementName array index) type s.type
    let vs ← m.elementValues id array type (index + 1) es
    return s.valueAs type :: vs

/-- Makes an array, declares a variable that refers to it, and returns the array's address. -/
def declareArray (id : Nat) (name : String) (elementType : DeclaredType) (elements : List Element) :
    MemoryM Address := do
  ask (·.requireFree id name)
  ask (·.requireRoom)
  let values ← ask (·.elementValues id name elementType 0 elements)
  onHeap (Heap.retainAll (values.filterMap Value.referent?))
  let a ← freshAddress
  onHeap (Heap.allocate a (.array elementType) (.array values))
  let _ ← pushSlot id name (.array elementType) (.arrayRef a)
  return a

/-- Declares a variable as a copy of another and returns its address. -/
def declareCopy (id : Nat) (name : String) (type : DeclaredType) (source : String) :
    MemoryM Address := do
  ask (·.requireFree id name)
  let s ← ask (·.lookup id source)
  ask fun _ => requireAccepts name type s.type
  let value := s.valueAs type
  onHeap (Heap.retainAll value.referent?.toList)
  pushSlot id name type value

/-! ### Assignments -/

/-- Changes the value of a variable. -/
def overwrite (id : Nat) (target : String) (value : Value) : MemoryM Unit := do
  let _ ← ask (·.lookup id target)
  modify fun m => { m with stack := m.stack.update id (·.write target value) }

/-- Changes the value of a reference variable: releases the old entry, then retains the new one
unless it is counted already.  Returns the collected entries. -/
def rebind (id : Nat) (target : String) (value : Value) (counted : Bool) :
    MemoryM (List Entry) := do
  let s ← ask (·.lookup id target)
  if s.value = value then return []
  let collected ← match s.value.referent? with
    | some a => onHeap (Heap.release a)
    | none => pure []
  if !counted then onHeap (Heap.retainAll value.referent?.toList)
  overwrite id target value
  return collected

/-- Copies one variable into another and returns what was collected. -/
def assign (id : Nat) (target source : String) : MemoryM (List Entry) := do
  let t ← ask (·.lookup id target)
  let s ← ask (·.lookup id source)
  ask fun _ => requireAccepts target t.type s.type
  if t.type.isReference then rebind id target s.value false
  else
    overwrite id target (s.valueAs t.type)
    return []

/-- Writes a literal of type `source` into a primitive variable. -/
def assignLiteral (id : Nat) (target : String) (source : Primitive) (value : Value) :
    MemoryM Unit := do
  let t ← ask (·.lookup id target)
  match t.type.primitive?.filter fun p => p.accepts source && !value.isReference with
  | some p => overwrite id target (value.widen p)
  | none => throw (.incompatible target t.type (.type (.primitive source)))

/-- Makes a reference variable refer to nothing and returns what was collected. -/
def assignNull (id : Nat) (target : String) : MemoryM (List Entry) := do
  let t ← ask (·.lookup id target)
  if !t.type.isReference then throw (.incompatible target t.type .null)
  rebind id target .null false

/-- Makes an object, lets a variable refer to it, and returns the object's address. -/
def assignNew (id : Nat) (target : String) (category : String) (fields : List Field) :
    MemoryM Address := do
  let t ← ask (·.lookup id target)
  if t.type ≠ .object category then
    throw (.incompatible target t.type (.type (.object category)))
  ask (·.requireRoom)
  let a ← freshAddress
  onHeap (Heap.allocate a (.object category) (.object fields))
  let _ ← rebind id target (.objectRef a) true
  return a

/-! ### Scopes -/

/-- Pushes an empty frame and returns its number. -/
def enter (name : String) : MemoryM Nat := do
  let m ← get
  if m.maxFrames ≤ m.stack.depth then throw (.stackOverflow m.maxFrames)
  set { m with stack := m.stack.push name }
  return m.stack.nextId

/-- Releases addresses in turn, each with everything that follows from it. -/
def releaseEach : List Address → HeapM (List Entry)
  | [] => return []
  | a :: as => do
    let collected ← Heap.release a
    let more ← releaseEach as
    return collected ++ more

/-- Releases every reference of the innermost frame and pops it.  Returns the frame and what was
collected. -/
def leave : MemoryM (Frame × List Entry) := do
  let m ← get
  match m.stack.pop? with
  | none => throw (.rootFrameExit m.stack.root.name)
  | some (frame, stack) =>
    let collected ← onHeap (releaseEach frame.references)
    modify fun m => { m with stack := stack }
    return (frame, collected)

end Memory

end StackHeap.Store
