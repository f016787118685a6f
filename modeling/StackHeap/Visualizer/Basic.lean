import StackHeap.History
import StackHeap.Session.Basic
import StackHeap.Visualizer.Editor

/-! # The visualizer

The visualizer drives a session from a keyboard.  It keeps every state in the history, and shows
either the live state or, while browsing, an earlier one; browsing, editing and scrolling never
touch the session.

* **Editing** changes the command line.  Enter runs the trimmed line unless it is blank, and then
  returns to the live state and an empty line.
* **Recall** walks through the commands that were run, without neighbouring repetitions.
* **Browsing** walks through the history.  Past its last state but one lies the live state.
* **Scrolling** moves the focused pane by ten lines.  Offsets are not limited to the content here;
  drawing does that. -/

namespace StackHeap

namespace Visualizer

/-- The panes that can be focused and scrolled. -/
inductive Pane where
  | stack | heap | transcript
deriving DecidableEq, Repr, Inhabited

/-- The pane after another. -/
def Pane.next : Pane → Pane
  | stack => heap
  | heap => transcript
  | transcript => stack

/-- The pane before another. -/
def Pane.previous : Pane → Pane
  | stack => transcript
  | heap => stack
  | transcript => heap

/-- The largest scroll offset, which pins a pane to its last line. -/
def bottom : Nat := Number.pow2 64 - 1

/-- The number of lines that a page is. -/
def page : Nat := 10

/-- The scroll offsets of the panes. -/
@[ext]
structure Scroll where
  stack : Nat := 0
  heap : Nat := 0
  transcript : Nat := bottom
deriving DecidableEq, Repr, Inhabited

/-- The offsets with that of a pane changed. -/
def Scroll.update (s : Scroll) (f : Nat → Nat) : Pane → Scroll
  | .stack => { s with stack := f s.stack }
  | .heap => { s with heap := f s.heap }
  | .transcript => { s with transcript := f s.transcript }

/-- Keys. -/
inductive Key where
  | esc | tab | backTab | pageUp | pageDown | up | down | enter
  | left | right | home | toEnd | backspace | delete
  | char (c : Char)
  /-- A key without a meaning here. -/
  | other
deriving DecidableEq, Repr, Inhabited

end Visualizer

open Visualizer

/-- The state of the visualizer. -/
structure Visualizer where
  session : Session
  history : History
  /-- The state after the last command. -/
  live : Snapshot
  /-- The index in the history of the state shown while browsing. -/
  viewing : Option Nat := none
  editor : Editor := {}
  /-- The commands run, the first one first. -/
  submitted : List String := []
  /-- The index of the command that was recalled last. -/
  recalled : Option Nat := none
  focus : Pane := .stack
  scroll : Scroll := {}
  quit : Bool := false
  status : String := "Type a command and press Enter"
  /-- Whether the last command was carried out, if there was one. -/
  lastOk : Option Bool := none
deriving DecidableEq, Repr, Inhabited

namespace Visualizer

/-- The visualizer of a session, with a budget for the history. -/
def new (session : Session) (budget : Nat) : Visualizer where
  session := session
  history := ({ budget := budget } : History).push "(start)" session.snapshot
  live := session.snapshot

/-- The state shown. -/
def displayed (v : Visualizer) : Snapshot :=
  ((v.viewing.bind v.history.get?).map (·.snapshot)).getD v.live

/-! ### Commands -/

/-- Runs a command and returns to the live state. -/
def runCommand (v : Visualizer) (command : String) : Visualizer :=
  let (session, outcome) := v.session.run command
  { v with
    session := session
    live := session.snapshot
    history := v.history.push command session.snapshot
    submitted := if v.submitted.getLast? = some command then v.submitted else v.submitted ++ [command]
    recalled := none
    editor := {}
    viewing := none
    status := outcome.message
    lastOk := some outcome.ok
    scroll := { v.scroll with transcript := bottom } }

/-- Runs the command line unless it is blank. -/
def submit (v : Visualizer) : Visualizer :=
  let command := Text.trim v.editor.text
  if command = [] then v else v.runCommand (String.ofList command)

/-! ### Browsing -/

/-- The index of the newest state in the history. -/
def latestIndex (v : Visualizer) : Nat := v.history.length - 1

/-- Shows the state of an index. -/
def view (v : Visualizer) (index : Nat) : Visualizer :=
  { v with
    viewing := some index
    status := match v.history.get? index with
      | some r => "Viewing state after: " ++ r.command
      | none => v.status }

/-- Shows the state before the one shown. -/
def browseOlder (v : Visualizer) : Visualizer :=
  match v.viewing.getD v.latestIndex with
  | 0 => { v with status := "Already at the oldest retained state" }
  | index + 1 => v.view index

/-- Shows the state after the one shown, while browsing. -/
def browseNewer (v : Visualizer) : Visualizer :=
  match v.viewing with
  | none => v
  | some index =>
    if v.latestIndex ≤ index + 1 then { v with viewing := none, status := "Back to the live state" }
    else v.view (index + 1)

/-! ### Recall -/

/-- Puts the recalled command of an index on the command line. -/
def recallAt (v : Visualizer) (index : Nat) : Visualizer :=
  { v with recalled := some index, editor := .ofText (v.submitted[index]?.getD "").toList }

/-- Recalls the command before the one recalled last. -/
def recallOlder (v : Visualizer) : Visualizer :=
  if v.submitted.isEmpty then v
  else v.recallAt ((v.recalled.getD v.submitted.length) - 1)

/-- Recalls the command after the one recalled last, and nothing after the last one. -/
def recallNewer (v : Visualizer) : Visualizer :=
  match v.recalled with
  | none => v
  | some index =>
    if index + 1 < v.submitted.length then v.recallAt (index + 1)
    else { v with recalled := none, editor := {} }

/-! ### Keys -/

/-- Changes the command line. -/
def edit (v : Visualizer) (f : Editor → Editor) : Visualizer := { v with editor := f v.editor }

/-- Presses a key; a character may come with the control key. -/
def press (v : Visualizer) (key : Key) (ctrl : Bool) : Visualizer :=
  match key with
  | .esc => { v with quit := true }
  | .tab => { v with focus := v.focus.next }
  | .backTab => { v with focus := v.focus.previous }
  | .pageUp => { v with scroll := v.scroll.update (· - page) v.focus }
  | .pageDown => { v with scroll := v.scroll.update (fun n => min (n + page) bottom) v.focus }
  | .up => v.recallOlder
  | .down => v.recallNewer
  | .enter => v.submit
  | .left => v.edit .left
  | .right => v.edit .right
  | .home => v.edit .home
  | .toEnd => v.edit .toEnd
  | .backspace => v.edit .backspace
  | .delete => v.edit .delete
  | .char c =>
    if !ctrl then v.edit (·.insert c)
    else match c with
      | 'c' => { v with quit := true }
      | 'p' => v.browseOlder
      | 'n' => v.browseNewer
      | _ => v
  | .other => v

end Visualizer

end StackHeap
