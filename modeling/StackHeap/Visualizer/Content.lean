import StackHeap.Visualizer.Basic
import StackHeap.Visualizer.Line

/-! # What the panes show

Each pane has a list of lines: the stack pane a heading for every frame and a line for every slot,
the heap pane a heading for every entry and a line for every field or element, the transcript pane
two lines for every command. -/

namespace StackHeap.Visualizer

open Store Number

/-- The colour of a value. -/
def valueColor : Value → Color
  | .int _ | .float _ | .char _ | .text _ => .orange
  | .bool _ | .null => .blue
  | .objectRef _ | .arrayRef _ => .pink

/-- A value in its colour. -/
def valueLine (v : Value) : Line := colored (valueColor v) v.display

/-- A type, a name, and how it comes by its value. -/
def bindingLine (type name arrow : String) (value : Value) : Line :=
  colored .cyan type ++ colored .foreground (" " ++ name) ++ colored .grey arrow ++ valueLine value

/-- The lines of a frame; the current frame has a coloured marker. -/
def frameLines (current : Bool) (f : Frame) : List Line :=
  let heading := colored (if current then .orange else .grey) "▸ " ++
    colored .grey ("#" ++ naturalText f.id ++ " │ ") ++ styled { fg := .yellow, bold := true } f.name
  let slot (s : Slot) : Line := colored .grey ("  " ++ s.address.token ++ " ") ++
    bindingLine s.type.text s.name (if s.type.isReference then " → " else " = ") s.value
  heading ::
    (if f.slots.isEmpty then [colored .grey "    (no variables)"] else f.slots.map slot)

/-- The lines of the stack pane. -/
def stackLines (s : Snapshot) : List Line :=
  s.frames.dropLast.flatMap (frameLines false) ++ s.frames.getLast?.toList.flatMap (frameLines true)

/-- The lines of what an entry holds. -/
def contentsLines : Contents → List Line
  | .object fields => fields.map fun f =>
    styled {} "    " ++ bindingLine f.type.name f.name " = " f.value
  | .array elements => elements.zipIdx.map fun (v, i) =>
    colored .grey ("    [" ++ naturalText i ++ "] ") ++ valueLine v

/-- The lines of a heap entry. -/
def entryLines (e : EntryView) : List Line :=
  let heading := styled { fg := .pink, bold := true } e.address.token ++ styled {} " " ++
    colored .cyan e.type.text ++ colored .grey "  refs: " ++
    colored (if 1 < e.refs then .orange else .green) (naturalText e.refs)
  heading :: contentsLines e.contents

/-- The lines of the heap pane. -/
def heapLines (s : Snapshot) : List Line := s.heap.flatMap entryLines

/-- The lines of a command in the transcript. -/
def commandLines (e : TranscriptEntry) : List Line :=
  let label := if e.outcome.ok then colored .green "  ok: " else colored .red "  error: "
  [colored .grey "> " ++ colored .foreground e.command, label ++ colored .grey e.outcome.message]

/-- The lines of the transcript pane. -/
def transcriptLines (s : Session) : List Line := s.transcript.flatMap commandLines

end StackHeap.Visualizer
