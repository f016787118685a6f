import StackHeap.Text.Boundary

/-! # The line editor

The command being typed, with a cursor that counts characters: it stands before the character of
its index, or at the end.  The text itself is edited at offsets in bytes, which are found by walking
over its characters.

The cursor cuts the text in two, `before` and `after`.  As long as it stands within the text, every
offset is one at which the edit can be made (`backspace_eq`), a character typed goes to the end of
the first part, backspace takes the last character of the first part, and delete the first one of
the second. -/

namespace StackHeap.Visualizer

/-- A text being edited. -/
structure Editor where
  text : List Char := []
  cursor : Nat := 0
deriving DecidableEq, Repr, Inhabited

namespace Editor

/-- The text in front of the cursor. -/
def before (e : Editor) : List Char := e.text.take e.cursor

/-- The text behind the cursor. -/
def after (e : Editor) : List Char := e.text.drop e.cursor

theorem before_append_after (e : Editor) : e.before ++ e.after = e.text :=
  List.take_append_drop _ _

/-- The text with the cursor at its end. -/
def ofText (text : List Char) : Editor := ⟨text, text.length⟩

/-- The offset in bytes of the character of an index, or that of the end. -/
def byteOffset (e : Editor) (index : Nat) : Nat := Text.offsetOf e.text index

/-- Puts a character in front of the cursor. -/
def insert (e : Editor) (c : Char) : Editor :=
  match Text.insertAt? (e.byteOffset e.cursor) c e.text with
  | some text => ⟨text, e.cursor + 1⟩
  | none => e

/-- Removes the character in front of the cursor. -/
def backspace (e : Editor) : Editor :=
  if e.cursor = 0 then e
  else match Text.removeAt? (e.byteOffset (e.cursor - 1)) e.text with
    | some text => ⟨text, e.cursor - 1⟩
    | none => e

/-- Removes the character at the cursor. -/
def delete (e : Editor) : Editor :=
  if e.cursor < e.text.length then
    match Text.removeAt? (e.byteOffset e.cursor) e.text with
    | some text => { e with text := text }
    | none => e
  else e

/-- Moves the cursor back by one. -/
def left (e : Editor) : Editor := { e with cursor := e.cursor - 1 }

/-- Moves the cursor on by one, at most to the end. -/
def right (e : Editor) : Editor := { e with cursor := min (e.cursor + 1) e.text.length }

/-- Moves the cursor to the start. -/
def home (e : Editor) : Editor := { e with cursor := 0 }

/-- Moves the cursor to the end. -/
def toEnd (e : Editor) : Editor := { e with cursor := e.text.length }

/-! ### Edits by characters -/

theorem insert_eq (e : Editor) (c : Char) : e.insert c = ⟨e.before ++ c :: e.after, e.cursor + 1⟩ := by
  rw [insert, byteOffset, Text.insertAt?_offsetOf]
  rfl

theorem backspace_eq {e : Editor} (h : e.cursor ≤ e.text.length) :
    e.backspace = if e.cursor = 0 then e else ⟨e.text.eraseIdx (e.cursor - 1), e.cursor - 1⟩ := by
  unfold backspace
  split
  · rfl
  · rw [byteOffset, Text.removeAt?_offsetOf (by omega)]

theorem delete_eq (e : Editor) : e.delete = { e with text := e.text.eraseIdx e.cursor } := by
  unfold delete
  split
  · next hlt => rw [byteOffset, Text.removeAt?_offsetOf hlt]
  · next hge => rw [List.eraseIdx_of_length_le (Nat.le_of_not_lt hge)]

/-! ### The two parts -/

section

variable {e : Editor} (h : e.cursor ≤ e.text.length)
include h

theorem length_before : e.before.length = e.cursor := by simp [before, h]

theorem before_insert (c : Char) : (e.insert c).before = e.before ++ [c] := by
  rw [insert_eq]
  show (e.before ++ c :: e.after).take (e.cursor + 1) = _
  rw [← length_before h, List.take_length_add_append]
  rfl

theorem after_insert (c : Char) : (e.insert c).after = e.after := by
  rw [insert_eq]
  show (e.before ++ c :: e.after).drop (e.cursor + 1) = _
  rw [← length_before h, List.drop_length_add_append]
  rfl

theorem before_backspace : e.backspace.before = e.before.dropLast := by
  rw [backspace_eq h]
  split
  · next hc => simp [before, hc]
  · next hc =>
    have hl : (e.text.take (e.cursor - 1)).length = e.cursor - 1 := by simp; omega
    rw [before, before, List.eraseIdx_eq_take_drop_succ, List.take_left' hl,
      List.dropLast_eq_take, List.length_take, Nat.min_eq_left h, List.take_take,
      Nat.min_eq_left (Nat.sub_le _ _)]

theorem after_backspace : e.backspace.after = e.after := by
  rw [backspace_eq h]
  split
  · rfl
  · next hc =>
    have hl : (e.text.take (e.cursor - 1)).length = e.cursor - 1 := by simp; omega
    rw [after, after, List.eraseIdx_eq_take_drop_succ, List.drop_left' hl,
      Nat.sub_add_cancel (by omega)]

theorem before_delete : e.delete.before = e.before := by
  rw [before, delete_eq, List.eraseIdx_eq_take_drop_succ]
  exact List.take_left' (length_before h)

theorem after_delete : e.delete.after = e.after.tail := by
  rw [after, delete_eq, List.eraseIdx_eq_take_drop_succ, after, List.tail_drop]
  exact List.drop_left' (length_before h)

theorem before_left : e.left.before = e.before.dropLast := by
  rw [List.dropLast_eq_take, length_before h]
  simp only [before, left, List.take_take]
  rw [Nat.min_eq_left (Nat.sub_le _ _)]

theorem after_left : e.left.after = e.before.getLast?.toList ++ e.after := by
  -- The text is still the same, so what has left the first part has come to the second.
  have hparts : e.before.dropLast ++ e.left.after = e.before ++ e.after := by
    rw [← before_left h]
    exact e.left.before_append_after.trans e.before_append_after.symm
  cases hlast : e.before.getLast? with
  | none =>
      rw [List.getLast?_eq_none_iff] at hlast
      simpa [hlast] using hparts
  | some c =>
      obtain ⟨front, hfront⟩ := List.getLast?_eq_some_iff.1 hlast
      rw [hfront, List.dropLast_concat, List.append_assoc] at hparts
      exact List.append_cancel_left hparts

end

theorem before_right (e : Editor) : e.right.before = e.before ++ e.after.head?.toList := by
  rw [before, before, after, List.head?_drop, ← List.take_add_one]
  exact List.take_eq_take_min.symm

theorem after_right (e : Editor) : e.right.after = e.after.tail := by
  rw [after, after, List.tail_drop]
  exact List.drop_eq_drop_min.symm

theorem before_toEnd (e : Editor) : e.toEnd.before = e.before ++ e.after := by
  rw [before_append_after]
  exact List.take_length

theorem after_toEnd (e : Editor) : e.toEnd.after = [] := List.drop_length

theorem before_ofText (text : List Char) : (ofText text).before = text := List.take_length

theorem after_ofText (text : List Char) : (ofText text).after = [] := List.drop_length

end Editor

end StackHeap.Visualizer
