import StackHeap.Visualizer.Content

/-! # Drawing

The terminal divides its screen into areas (`Layout`): one for each pane, one for the command line and
two for the status bar.  Drawing hands it a widget for each of them and the place of the cursor
(`Screen`).  How areas are chosen, and how widgets become cells, is the terminal's business.

* **Scrolling.**  A pane of height `h` lists `max (h - 2) 1` lines from its offset on, and the
  offset is first brought back to where the last line comes into view (`clamp`).  Drawing changes
  nothing but offsets; an empty heap and an empty transcript show a note and keep theirs.
* **The cursor** stands behind the text on the command line.  Its place is worked out in words of
  sixteen bits: the index is cut to a word, and adding the corner of the box, its border and the
  prompt must not overflow. -/

namespace StackHeap.Visualizer

open Number

/-! ### Areas and widgets -/

/-- A rectangle of a screen: the column and the row of its corner, and its size. -/
structure Area where
  x : Nat
  y : Nat
  width : Nat
  height : Nat
deriving DecidableEq, Repr, Inhabited

/-- The areas of a screen. -/
structure Layout where
  stack : Area
  heap : Area
  transcript : Area
  command : Area
  status : Area
  keys : Area
deriving DecidableEq, Repr, Inhabited

/-- A border with a title in it. -/
structure Block where
  title : String
  border : Style
  /-- The blank columns between the border and a line. -/
  indent : Nat := 0
deriving DecidableEq, Repr, Inhabited

/-- The end of an area at which a line stands. -/
inductive Alignment where
  | left | right
deriving DecidableEq, Repr, Inhabited

/-- What is handed to the terminal for an area. -/
inductive Widget where
  /-- Lines below each other. -/
  | list (block : Block) (lines : List Line)
  /-- A line on a ground of a style. -/
  | paragraph (block : Option Block) (ground : Style) (alignment : Alignment) (line : Line)
deriving DecidableEq, Repr

/-- The block of a pane; the one in focus stands out. -/
def block (title : String) (focused : Bool) : Block where
  title := " " ++ title ++ " "
  border := if focused then { fg := .yellow, bold := true } else { fg := .grey }

/-! ### Panes -/

/-- The number of lines that a pane shows. -/
def visibleLines (height : Nat) : Nat := max (height - 2) 1

/-- A scroll offset brought back to the content. -/
def clamp (offset total height : Nat) : Nat := min offset (total - visibleLines height)

/-- The lines of a pane that are in view. -/
def window (offset height : Nat) (lines : List Line) : List Line :=
  (lines.drop offset).take (visibleLines height)

/-- Lists lines from an offset on, which is brought back to them first. -/
def listed (block : Block) (height offset : Nat) (lines : List Line) : Nat × Widget :=
  let offset := clamp offset lines.length height
  (offset, .list block (window offset height lines))

/-- Lists lines, indented, or shows a note in their place if there are none. -/
def listedOr (note : String) (block : Block) (indent height offset : Nat) (lines : List Line) :
    Nat × Widget :=
  if lines.isEmpty then (offset, .paragraph (some block) { fg := .grey } .left (styled {} note))
  else listed { block with indent := indent } height offset lines

/-- The offset and the widget of the stack pane. -/
def stackPane (v : Visualizer) (height : Nat) : Nat × Widget :=
  listed (block "Call Stack" (v.focus = .stack)) height v.scroll.stack (stackLines v.displayed)

/-- The offset and the widget of the heap pane. -/
def heapPane (v : Visualizer) (height : Nat) : Nat × Widget :=
  listedOr "(empty)"
    (block ("Heap (" ++ naturalText v.displayed.heap.length ++ " live)") (v.focus = .heap)) 0 height
    v.scroll.heap (heapLines v.displayed)

/-- The offset and the widget of the transcript pane. -/
def transcriptPane (v : Visualizer) (height : Nat) : Nat × Widget :=
  listedOr "(no commands yet)" (block "Transcript" (v.focus = .transcript)) 1 height
    v.scroll.transcript (transcriptLines v.session)

/-! ### The status bar -/

/-- Text on the status bar. -/
def onBar (fg : Color) (text : String) : Line := styled { fg := fg, bg := .bar } text

/-- The state shown, its number, and the last message. -/
def statusLine (v : Visualizer) : Line :=
  let badge := match v.lastOk with
    | some false => Color.red
    | some true => .green
    | none => .blue
  let position := v.viewing.getD v.latestIndex + 1
  styled { fg := .black, bg := badge, bold := true }
      (" State " ++ naturalText position ++ "/" ++ naturalText (max v.history.length 1) ++ " ") ++
    onBar .grey " | " ++
    onBar (if v.lastOk = some false then .red else .foreground) (" " ++ v.status ++ " ")

/-- A key and what it does. -/
def hint (key action : String) : Line :=
  styled { fg := .black, bg := .grey } (" " ++ key ++ " ") ++
    onBar .foreground (" " ++ action ++ " ")

/-- The keys, and a mark while browsing. -/
def keysLine (browsing : Bool) : Line :=
  let bar := onBar .grey "│"
  let hints := hint "↵" "run" ++ bar ++ hint "↑/↓" "recall" ++ bar ++ hint "^P/^N" "history" ++
    bar ++ hint "⇥" "focus" ++ bar ++ hint "esc" "quit"
  if browsing then
    hints ++ bar ++ styled { fg := .black, bg := .orange, bold := true } " ◀ HISTORY "
  else hints

/-! ### The command line -/

/-- The prompt in front of the command line. -/
def prompt : String := "› "

/-- The text in the command box. -/
def commandLine (v : Visualizer) : Line :=
  colored .blue prompt ++
    colored (if v.viewing.isSome then .grey else .foreground) (String.ofList v.editor.text)

/-- Where the terminal's cursor is. -/
inductive CursorPlace where
  | hidden
  | shown (column row : Nat)
  /-- A sum does not fit a word of sixteen bits. -/
  | overflow
deriving DecidableEq, Repr, Inhabited

/-- The place of the cursor in a command box. -/
def cursorPlace (area : Area) (v : Visualizer) : CursorPlace :=
  let column := area.x + 1 + prompt.length + v.editor.cursor % pow2 16
  let limit := area.x + (area.width - 2)
  let row := area.y + 1
  if v.viewing.isSome then .hidden
  else if column < pow2 16 ∧ limit < pow2 16 ∧ row < pow2 16 then .shown (min column limit) row
  else .overflow

/-! ### The screen -/

/-- What is handed to the terminal, each widget for the area of its name. -/
structure Screen where
  stack : Widget
  heap : Widget
  transcript : Widget
  command : Widget
  status : Widget
  keys : Widget
  cursor : CursorPlace
deriving DecidableEq, Repr

/-- Draws a screen, which brings the offsets of panes back to their content. -/
def draw (v : Visualizer) (l : Layout) : Visualizer × Screen :=
  let stack := v.stackPane l.stack.height
  let heap := v.heapPane l.heap.height
  let transcript := v.transcriptPane l.transcript.height
  let bar : Style := { bg := .bar }
  ({ v with scroll := ⟨stack.1, heap.1, transcript.1⟩ },
    { stack := stack.2
      heap := heap.2
      transcript := transcript.2
      command := .paragraph (some (block "Command" v.viewing.isNone)) {} .left v.commandLine
      status := .paragraph none bar .left v.statusLine
      keys := .paragraph none bar .right (keysLine v.viewing.isSome)
      cursor := cursorPlace l.command v })

end StackHeap.Visualizer
