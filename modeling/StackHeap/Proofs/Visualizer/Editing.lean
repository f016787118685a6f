import StackHeap.Proofs.Visualizer.Consistency

/-! # The command line as two lists

The command line is a text in bytes with a cursor in characters.  To the user it is two lists of
characters, those in front of the cursor and those behind it, and keys change the ends at which they
meet (`SplitLine.step`).

* **Agreement.**  Seen as two lists, the command line does what the two lists do
  (`splitLine_after`), so after any events it is what they are.
* **Offsets.**  The offsets in bytes at which the next key would edit are positions of the string,
  and a character starts where one would be removed (`Editor.Editable`). -/

namespace StackHeap.Visualizer

/-! ### Two lists -/

/-- A command line that is cut in two at the cursor. -/
structure SplitLine where
  /-- The characters in front of the cursor. -/
  front : List Char := []
  /-- The characters behind the cursor. -/
  back : List Char := []
  /-- The commands to recall, the first one first. -/
  commands : List (List Char) := []
  /-- The index of the command that was recalled last, or the number of commands. -/
  place : Nat := 0
deriving DecidableEq, Repr, Inhabited

namespace SplitLine

/-- Replaces the text by a command, with the cursor at the end; there is none past the last one. -/
def recallAt (l : SplitLine) (place : Nat) : SplitLine :=
  { l with front := l.commands[place]?.getD [], back := [], place := place }

/-- The commands after one more, which is not repeated if it was the last one. -/
def extend (commands : List (List Char)) (command : List Char) : List (List Char) :=
  if commands.getLast? = some command then commands else commands ++ [command]

/-- Clears both lists and keeps the command, unless the line is blank. -/
def submit (l : SplitLine) : SplitLine :=
  let command := Text.trim (l.front ++ l.back)
  if command = [] then l
  else
    { commands := extend l.commands command, place := (extend l.commands command).length }

/-- What an event does to the two lists. -/
def step (l : SplitLine) : Event → SplitLine
  | .key .left _ =>
    { l with front := l.front.dropLast, back := l.front.getLast?.toList ++ l.back }
  | .key .right _ => { l with front := l.front ++ l.back.head?.toList, back := l.back.tail }
  | .key .home _ => { l with front := [], back := l.front ++ l.back }
  | .key .toEnd _ => { l with front := l.front ++ l.back, back := [] }
  | .key .backspace _ => { l with front := l.front.dropLast }
  | .key .delete _ => { l with back := l.back.tail }
  | .key (.char c) false => { l with front := l.front ++ [c] }
  | .key .up _ => if l.commands = [] then l else l.recallAt (l.place - 1)
  | .key .down _ => if l.place < l.commands.length then l.recallAt (l.place + 1) else l
  | .key .enter _ => l.submit
  | _ => l

end SplitLine

/-! ### Agreement -/

variable {v : Visualizer} {start : Session} {lines : List String}

/-- The command line as two lists. -/
def splitLine (v : Visualizer) : SplitLine where
  front := v.editor.before
  back := v.editor.after
  commands := v.submitted.map String.toList
  place := v.recalled.getD v.submitted.length

theorem splitLine_edit (v : Visualizer) (f : Editor → Editor) :
    (v.edit f).splitLine =
      { v.splitLine with front := (f v.editor).before, back := (f v.editor).after } := rfl

theorem splitLine_recallAt (v : Visualizer) (index : Nat) :
    (v.recallAt index).splitLine = v.splitLine.recallAt index := by
  have hfront : (v.submitted[index]?.getD "").toList =
      (v.submitted.map String.toList)[index]?.getD [] := by
    rw [List.getElem?_map]
    cases v.submitted[index]? <;> rfl
  simp only [splitLine, recallAt, SplitLine.recallAt, Editor.before_ofText, Editor.after_ofText,
    hfront, Option.getD_some]

theorem splitLine_recallOlder (v : Visualizer) :
    v.recallOlder.splitLine = v.splitLine.step (.key .up false) := by
  have hempty : v.splitLine.commands = [] ↔ v.submitted.isEmpty = true := by
    rw [List.isEmpty_iff]
    exact List.map_eq_nil_iff
  simp only [recallOlder, SplitLine.step, hempty]
  split
  · rfl
  · exact v.splitLine_recallAt _

theorem splitLine_recallNewer (hc : v.Consistent start lines) :
    v.recallNewer.splitLine = v.splitLine.step (.key .down false) := by
  have hlength : v.splitLine.commands.length = v.submitted.length := List.length_map _
  simp only [recallNewer, SplitLine.step, hlength]
  split
  · next hr =>
    have hplace : v.splitLine.place = v.submitted.length := by rw [splitLine, hr, Option.getD_none]
    rw [hplace, if_neg (Nat.lt_irrefl _)]
  · next index hr =>
    have hplace : v.splitLine.place = index := by rw [splitLine, hr, Option.getD_some]
    have hindex := hc.recalled index hr
    rw [hplace, if_pos hindex]
    split
    · exact v.splitLine_recallAt _
    · next hlast =>
      have hnext : index + 1 = v.submitted.length := by omega
      -- Past the last command lies the empty line.
      have hnone : (v.submitted.map String.toList)[v.submitted.length]? = none := by simp
      simp only [splitLine, SplitLine.recallAt, hnext, hnone, Option.getD_none]
      rfl

theorem map_submitted_runCommand (v : Visualizer) (command : List Char) :
    (v.runCommand (String.ofList command)).submitted.map String.toList =
      SplitLine.extend (v.submitted.map String.toList) command := by
  have hlast : v.submitted.getLast? = some (String.ofList command) ↔
      (v.submitted.map String.toList).getLast? = some command := by
    rw [List.getLast?_map]
    cases v.submitted.getLast? with
    | none => simp
    | some last =>
        rw [Option.map_some, Option.some.injEq, Option.some.injEq, ← String.toList_inj,
          String.toList_ofList]
  simp only [runCommand, SplitLine.extend, hlast]
  split
  · rfl
  · rw [List.map_append, List.map_singleton, String.toList_ofList]

theorem splitLine_runCommand (v : Visualizer) (command : List Char) :
    (v.runCommand (String.ofList command)).splitLine =
      let commands := SplitLine.extend v.splitLine.commands command
      { commands := commands, place := commands.length } := by
  have heditor : (v.runCommand (String.ofList command)).editor = {} := rfl
  have hrecalled : (v.runCommand (String.ofList command)).recalled = none := rfl
  rw [splitLine, heditor, hrecalled, Option.getD_none, ← List.length_map String.toList,
    map_submitted_runCommand]
  rfl

theorem splitLine_submit (v : Visualizer) : v.submit.splitLine = v.splitLine.submit := by
  have htext : v.splitLine.front ++ v.splitLine.back = v.editor.text := v.editor.before_append_after
  simp only [submit, SplitLine.submit, htext]
  split
  · rfl
  · exact v.splitLine_runCommand _

/-- Browsing is about the history only. -/
theorem splitLine_browseOlder (v : Visualizer) : v.browseOlder.splitLine = v.splitLine := by
  unfold browseOlder
  split <;> rfl

theorem splitLine_browseNewer (v : Visualizer) : v.browseNewer.splitLine = v.splitLine := by
  unfold browseNewer
  split
  · rfl
  · split <;> rfl

/-- **An event does to the command line what it does to the two lists.** -/
theorem splitLine_after (hc : v.Consistent start lines) (event : Event) :
    (v.after event).splitLine = v.splitLine.step event := by
  have hw := hc.editor
  cases event with
  | draw layout => rfl
  | key key ctrl =>
      cases key with
      | left =>
          rw [after, press, splitLine_edit, Editor.before_left hw, Editor.after_left hw]
          rfl
      | right =>
          rw [after, press, splitLine_edit, Editor.before_right, Editor.after_right]
          rfl
      | home =>
          show { v.splitLine with front := [], back := v.editor.text } = _
          rw [← v.editor.before_append_after]
          rfl
      | toEnd =>
          rw [after, press, splitLine_edit, Editor.before_toEnd, Editor.after_toEnd]
          rfl
      | backspace =>
          rw [after, press, splitLine_edit, Editor.before_backspace hw, Editor.after_backspace hw]
          rfl
      | delete =>
          rw [after, press, splitLine_edit, Editor.before_delete hw, Editor.after_delete hw]
          rfl
      | up => exact v.splitLine_recallOlder
      | down => exact splitLine_recallNewer hc
      | enter => exact v.splitLine_submit
      | char c =>
          cases ctrl with
          | false =>
              show (v.edit (·.insert c)).splitLine = _
              rw [splitLine_edit, Editor.before_insert hw, Editor.after_insert hw]
              rfl
          | true =>
              simp only [after, press, Bool.not_true, Bool.false_eq_true, if_false]
              split
              · rfl
              · exact v.splitLine_browseOlder
              · exact v.splitLine_browseNewer
              · rfl
      | _ => rfl

theorem splitLine_runAll (hc : v.Consistent start lines) (events : List Event) :
    (v.runAll events).splitLine = events.foldl SplitLine.step v.splitLine := by
  induction events generalizing v lines with
  | nil => rfl
  | cons event events ih =>
      rw [List.foldl_cons, ← splitLine_after hc]
      exact ih (hc.after event)

/-! ### Offsets -/

/-- The offsets at which the next key edits are positions of the string, and a character starts at
those at which one is removed. -/
structure Editor.Editable (e : Editor) : Prop where
  insert : (⟨e.byteOffset e.cursor⟩ : String.Pos.Raw).IsValid (String.ofList e.text)
  backspace : 0 < e.cursor →
    (⟨e.byteOffset (e.cursor - 1)⟩ : String.Pos.Raw).IsValid (String.ofList e.text) ∧
      e.byteOffset (e.cursor - 1) < (String.ofList e.text).utf8ByteSize
  delete : e.cursor < e.text.length →
    (⟨e.byteOffset e.cursor⟩ : String.Pos.Raw).IsValid (String.ofList e.text) ∧
      e.byteOffset e.cursor < (String.ofList e.text).utf8ByteSize

theorem Editor.Within.editable {e : Editor} (h : e.Within) : e.Editable := by
  have hlt : ∀ index < e.text.length,
      e.byteOffset index < (String.ofList e.text).utf8ByteSize := by
    intro index hindex
    rw [Text.utf8ByteSize_ofList]
    exact Text.offsetOf_lt hindex
  exact {
    insert := Text.isValid_offsetOf _ _
    backspace := fun hpos => ⟨Text.isValid_offsetOf _ _, hlt _ (by rw [Within] at h; omega)⟩
    delete := fun hcursor => ⟨Text.isValid_offsetOf _ _, hlt _ hcursor⟩ }

/-- **The command line is an editor of two lists.**  After any keys and draws, its text is the two
lists that the events make, with the cursor where they meet, and whatever key comes next edits the
text at a character boundary. -/
theorem line_is_two_lists (start : Session) (budget : Nat) (events : List Event) :
    let v := (Visualizer.new start budget).runAll events
    let l := events.foldl SplitLine.step {}
    v.editor.text = l.front ++ l.back ∧ v.editor.cursor = l.front.length ∧ v.editor.Editable := by
  intro v l
  have hnew := Consistent.new start budget
  have hc := hnew.runAll events
  have hl : v.splitLine = l := splitLine_runAll hnew events
  refine ⟨?_, ?_, hc.editor.editable⟩
  · rw [← hl]
    exact v.editor.before_append_after.symm
  · rw [← hl]
    exact (Editor.length_before hc.editor).symm

end StackHeap.Visualizer
