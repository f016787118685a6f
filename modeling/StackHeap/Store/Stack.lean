import StackHeap.Value

/-! # The stack

The stack is a list of frames, the oldest first.  The root frame is there from the start, has the
number 0 and is never popped, so the stack is a frame with a list of frames above it.  A frame
gets the next number when it is pushed; numbers are not used again.

A frame holds its slots in the order of their declaration.  A slot has a name and a type for good;
only its value changes. -/

namespace StackHeap.Store

/-- A declared variable. -/
structure Slot where
  address : Address
  name : String
  type : DeclaredType
  value : Value
deriving DecidableEq, Repr, Inhabited

/-- A slot's value in the form that a type uses. -/
def Slot.valueAs (s : Slot) (type : DeclaredType) : Value :=
  match type.primitive? with
  | some p => s.value.widen p
  | none => s.value

/-- The scope of some variables. -/
structure Frame where
  id : Nat
  name : String
  /-- The slots in declaration order. -/
  slots : List Slot := []
deriving DecidableEq, Repr, Inhabited

namespace Frame

/-- The slot of a variable. -/
def slot? (f : Frame) (name : String) : Option Slot := f.slots.find? (·.name = name)

/-- The frame with one more slot. -/
def push (f : Frame) (s : Slot) : Frame := { f with slots := f.slots ++ [s] }

/-- The frame with the value of a variable changed. -/
def write (f : Frame) (name : String) (value : Value) : Frame :=
  { f with slots := f.slots.map fun s => if s.name = name then { s with value := value } else s }

/-- The addresses that the slots hold, in declaration order. -/
def references (f : Frame) : List Address := f.slots.filterMap (·.value.referent?)

end Frame

/-- The stack. -/
structure Stack where
  root : Frame
  /-- The frames above the root, the oldest first. -/
  above : List Frame := []
  /-- The number of the next frame. -/
  nextId : Nat := 1
deriving DecidableEq, Repr, Inhabited

namespace Stack

/-- The stack that holds only a root frame. -/
def new (rootName : String) : Stack := ⟨⟨0, rootName, []⟩, [], 1⟩

/-- The frames, the oldest first. -/
def frames (s : Stack) : List Frame := s.root :: s.above

/-- All slots, frame by frame. -/
def slots (s : Stack) : List Slot := s.frames.flatMap (·.slots)

/-- The number of frames. -/
def depth (s : Stack) : Nat := s.frames.length

/-- The innermost frame. -/
def current (s : Stack) : Frame := s.above.getLast?.getD s.root

/-- The frame with a number. -/
def frame? (s : Stack) (id : Nat) : Option Frame := s.frames.find? (·.id = id)

/-- The stack with a new, empty frame on top. -/
def push (s : Stack) (name : String) : Stack :=
  { s with above := s.above ++ [⟨s.nextId, name, []⟩], nextId := s.nextId + 1 }

/-- The top frame and the stack without it, unless it is the root frame. -/
def pop? (s : Stack) : Option (Frame × Stack) :=
  s.above.getLast?.map fun f => (f, { s with above := s.above.dropLast })

/-- The stack with the frame of a number changed. -/
def update (s : Stack) (id : Nat) (g : Frame → Frame) : Stack :=
  let change (f : Frame) : Frame := if f.id = id then g f else f
  { s with root := change s.root, above := s.above.map change }

@[simp] theorem frames_push (s : Stack) (name : String) :
    (s.push name).frames = s.frames ++ [⟨s.nextId, name, []⟩] := rfl

@[simp] theorem current_push (s : Stack) (name : String) :
    (s.push name).current = ⟨s.nextId, name, []⟩ := by simp [current, push]

theorem pop?_push (s : Stack) (name : String) :
    (s.push name).pop? = some (⟨s.nextId, name, []⟩, { s with nextId := s.nextId + 1 }) := by
  simp [pop?, push]

theorem pop?_eq_none_iff {s : Stack} : s.pop? = none ↔ s.depth = 1 := by
  simp [pop?, depth, frames]

theorem frames_of_pop? {s t : Stack} {f : Frame} (h : s.pop? = some (f, t)) :
    s.frames = t.frames ++ [f] := by
  obtain ⟨g, hg, he⟩ := Option.map_eq_some_iff.1 h
  obtain ⟨rfl, rfl⟩ := Prod.mk.inj he
  obtain ⟨r, hr⟩ := List.getLast?_eq_some_iff.1 hg
  simp [frames, hr]

end Stack

end StackHeap.Store
