import StackHeap.Store.Memory

/-! # Snapshots

A snapshot is the memory as a user sees it: the frames, the oldest first, and the live heap
entries in allocation order.  Its text has a line for every frame, slot and entry. -/

namespace StackHeap

open Store Number

/-- A heap entry as a user sees it. -/
structure EntryView where
  address : Address
  type : DeclaredType
  refs : Nat
  contents : Contents
deriving DecidableEq, Repr, Inhabited

/-- The memory as a user sees it. -/
structure Snapshot where
  frames : List Frame
  heap : List EntryView
deriving DecidableEq, Repr, Inhabited

/-! ### Text -/

/-- The text of a slot. -/
def Store.Slot.text (s : Slot) : String :=
  s.address.token ++ " " ++ s.type.text ++ " " ++ s.name ++
    (if s.type.isReference then " -> " else " = ") ++ s.value.display

/-- The text of a field. -/
def Field.text (f : Field) : String := f.type.name ++ " " ++ f.name ++ " = " ++ f.value.display

/-- The text of what an entry holds. -/
def Store.Contents.text : Contents → String
  | .object fields => "\x7b " ++ ", ".intercalate (fields.map Field.text) ++ " \x7d"
  | .array elements => "[" ++ ", ".intercalate (elements.map Value.display) ++ "]"

/-- The text of an entry. -/
def EntryView.text (e : EntryView) : String :=
  e.address.token ++ " " ++ e.type.text ++ " (refs: " ++ naturalText e.refs ++ ") " ++
    e.contents.text

/-- The number and the name of a frame. -/
def Store.Frame.heading (f : Frame) : String := "#" ++ naturalText f.id ++ " " ++ f.name

/-- The lines of a frame. -/
def Store.Frame.lines (f : Frame) : List String :=
  ("  " ++ f.heading) ::
    (if f.slots.isEmpty then ["    (empty)"] else f.slots.map fun s => "    " ++ s.text)

namespace Snapshot

/-- The snapshot of the memory. -/
def ofMemory (m : Memory) : Snapshot where
  frames := m.stack.frames
  heap := m.heap.entries.map fun e => ⟨e.address, e.type, e.refs, e.contents⟩

/-- The lines of a snapshot. -/
def lines (s : Snapshot) : List String :=
  ["stack:"] ++ s.frames.flatMap Frame.lines ++ ["heap:"] ++
    (if s.heap.isEmpty then ["  (empty)"] else s.heap.map fun e => "  " ++ e.text)

/-- The text of a snapshot; every line ends with a line feed. -/
def text (s : Snapshot) : String := String.join (s.lines.map (· ++ "\n"))

/-! ### Questions -/

/-- The innermost frame. -/
def currentFrame? (s : Snapshot) : Option Frame := s.frames.getLast?

/-- The innermost frame with a name. -/
def frameNamed? (s : Snapshot) (name : String) : Option Frame :=
  s.frames.reverse.find? (·.name = name)

/-- A variable of the innermost frame. -/
def slot? (s : Snapshot) (name : String) : Option Slot := s.currentFrame?.bind (·.slot? name)

/-- The entry at an address. -/
def entry? (s : Snapshot) (a : Address) : Option EntryView := s.heap.find? (·.address = a)

/-- The entry that a variable of the innermost frame refers to. -/
def referentOf? (s : Snapshot) (name : String) : Option EntryView := do
  s.entry? (← (← s.slot? name).value.referent?)

/-- A rough count of the bytes that a snapshot takes up. -/
def size (s : Snapshot) : Nat :=
  s.frames.foldr (fun f n => 64 + f.name.utf8ByteSize + f.slots.length * 96 + n) 0 +
    s.heap.foldr (fun e n => 96 + e.contents.length * 64 + n) 0

end Snapshot

end StackHeap
