import StackHeap.Proofs.Visualizer.Drawing

/-! # Where the cursor is drawn

The cursor belongs behind the text in front of it, at most in the last column inside the box
(`cursorColumn`).  Its place is worked out in words of sixteen bits, though, and the index of the
cursor is cut to a word before it is compared with the width of the box.

* **Short lines.**  Up to the word size the sums are those of the whole numbers
  (`cursorPlace_of_text`).
* **Long lines.**  The column drawn is the one that belongs to the cut index
  (`cursorPlace_eq`), so it jumps back to the prompt each time that the index passes a multiple of
  the word size, which typing reaches (`cursor_typed`); just below a multiple the sum overflows. -/

namespace StackHeap.Visualizer

open Number

variable {v : Visualizer} {area : Area}

/-- The column of a cursor in a command box: behind the border, the prompt and the characters in
front of it, or else the last one inside the box. -/
def cursorColumn (area : Area) (cursor : Nat) : Nat :=
  min (area.x + 3 + cursor) (area.x + (area.width - 2))

/-- **The column drawn is the one that belongs to the index cut to a word.** -/
theorem cursorPlace_eq (hlive : v.viewing = none) (hx : area.x + area.width < pow2 16)
    (hy : area.y + 1 < pow2 16) :
    cursorPlace area v =
      if area.x + 3 + v.editor.cursor % pow2 16 < pow2 16 then
        .shown (cursorColumn area (v.editor.cursor % pow2 16)) (area.y + 1)
      else .overflow := by
  have hlimit : area.x + (area.width - 2) < pow2 16 := by omega
  have hsum : area.x + 1 + prompt.length + v.editor.cursor % pow2 16 =
      area.x + 3 + v.editor.cursor % pow2 16 := rfl
  simp only [cursorPlace, hlive, hsum, hlimit, hy, and_self, and_true]
  rfl

/-- Scrolling does not move the cursor, so it is drawn as it was before. -/
theorem cursor_draw (v : Visualizer) (l : Layout) :
    (v.draw l).2.cursor = cursorPlace l.command v := rfl

/-- Cutting an index never moves its column to the right. -/
theorem cursorColumn_mod_le (area : Area) (cursor n : Nat) :
    cursorColumn area (cursor % n) ≤ cursorColumn area cursor := by
  have hle : cursor % n ≤ cursor := Nat.mod_le cursor n
  unfold cursorColumn
  omega

/-- Cutting an index keeps its column if there is nothing to cut, or if what is left of it still
reaches the end of the box. -/
theorem cursorColumn_mod_eq_iff {n : Nat} (hn : 0 < n) (area : Area) (cursor : Nat) :
    cursorColumn area (cursor % n) = cursorColumn area cursor ↔
      cursor < n ∨ area.width - 2 ≤ 3 + cursor % n := by
  have hlt : cursor % n < n := Nat.mod_lt cursor hn
  have hcut : cursor < n ↔ cursor % n = cursor :=
    ⟨Nat.mod_eq_of_lt, fun heq => heq ▸ hlt⟩
  have hle : cursor % n ≤ cursor := Nat.mod_le cursor n
  rw [hcut]
  unfold cursorColumn
  omega

/-- A text that leaves room in a word has its cursor drawn where it belongs. -/
theorem cursorPlace_of_text (hlive : v.viewing = none) (hw : v.editor.Within)
    (hx : area.x + area.width < pow2 16) (hy : area.y + 1 < pow2 16)
    (ht : area.x + 3 + v.editor.text.length < pow2 16) :
    cursorPlace area v = .shown (cursorColumn area v.editor.cursor) (area.y + 1) := by
  rw [Editor.Within] at hw
  have hcut : v.editor.cursor % pow2 16 = v.editor.cursor := Nat.mod_eq_of_lt (by omega)
  rw [cursorPlace_eq hlive hx hy, hcut, if_pos (by omega)]

/-- Typing moves the cursor on without a limit, and does nothing else to what is shown. -/
theorem cursor_typed (v : Visualizer) (c : Char) (n : Nat) :
    (v.runAll (List.replicate n (.key (.char c) false))).editor.cursor = v.editor.cursor + n ∧
      (v.runAll (List.replicate n (.key (.char c) false))).viewing = v.viewing := by
  induction n generalizing v with
  | zero => exact ⟨rfl, rfl⟩
  | succ n ih =>
      have hstep : (v.after (.key (.char c) false)).editor = v.editor.insert c := rfl
      have hcursor : (v.editor.insert c).cursor = v.editor.cursor + 1 := by rw [Editor.insert_eq]
      obtain ⟨hn, hviewing⟩ := ih (v.after (.key (.char c) false))
      rw [hstep, hcursor, Nat.add_assoc, Nat.add_comm 1 n] at hn
      exact ⟨hn, hviewing⟩

/-- **The cursor is drawn by words.**  After any keys and draws, and unless an earlier state is
shown, let `word` be the index of the cursor cut to a word.  If the sum for `word` overflows there is
no place at all, and otherwise it is that of `word`.  It is the place of the cursor itself just when
the sum does not overflow and either nothing was cut or `word` reaches the end of the box, as it is for
every text that leaves room in a word; else, where a place is shown, it lies to the left. -/
theorem cursor_drawn_by_words (start : Session) (budget : Nat) (events : List Event) (area : Area)
    (hlive : ((Visualizer.new start budget).runAll events).viewing = none)
    (hx : area.x + area.width < pow2 16) (hy : area.y + 1 < pow2 16) :
    let v := (Visualizer.new start budget).runAll events
    let word := v.editor.cursor % pow2 16
    let right := CursorPlace.shown (cursorColumn area v.editor.cursor) (area.y + 1)
    (cursorPlace area v = .overflow ↔ pow2 16 ≤ area.x + 3 + word) ∧
      (cursorPlace area v = right ↔
        area.x + 3 + word < pow2 16 ∧
          (v.editor.cursor < pow2 16 ∨ area.width - 2 ≤ 3 + word)) ∧
      (area.x + 3 + v.editor.text.length < pow2 16 → cursorPlace area v = right) ∧
      ∀ column row, cursorPlace area v = .shown column row → cursorPlace area v ≠ right →
        column < cursorColumn area v.editor.cursor ∧ row = area.y + 1 := by
  intro v word right
  have hplace : cursorPlace area v =
      if area.x + 3 + word < pow2 16 then .shown (cursorColumn area word) (area.y + 1)
      else .overflow := cursorPlace_eq hlive hx hy
  have hkeeps : cursorColumn area word = cursorColumn area v.editor.cursor ↔
      v.editor.cursor < pow2 16 ∨ area.width - 2 ≤ 3 + word :=
    cursorColumn_mod_eq_iff (pow2_pos 16) area v.editor.cursor
  have hle : cursorColumn area word ≤ cursorColumn area v.editor.cursor :=
    cursorColumn_mod_le area v.editor.cursor (pow2 16)
  have hwithin : v.editor.Within := ((Consistent.new start budget).runAll events).editor
  refine ⟨?_, ?_, cursorPlace_of_text hlive hwithin hx hy, ?_⟩
  · rw [hplace]
    split
    · next hroom => simpa using hroom
    · next hfull => simpa using hfull
  · rw [hplace, ← hkeeps]
    split
    · next hroom => simp [right, hroom]
    · next hfull => simp [right, hfull]
  · intro column row hshown hwrong
    rw [hplace] at hshown hwrong
    split at hshown
    · next hroom =>
      rw [if_pos hroom] at hwrong
      obtain ⟨rfl, rfl⟩ := CursorPlace.shown.inj hshown
      refine ⟨lt_of_le_of_ne hle fun heq => hwrong ?_, rfl⟩
      rw [heq]
    · cases hshown

/-- A line as wide as the screen: the cursor stays in the last column inside the box. -/
theorem cursor_drawn_by_words_at_edge :
    let v := (Visualizer.new (.new {}) 0).runAll (List.replicate 40 (.key (.char 'a') false))
    let area := smallLayout.command
    v.viewing = none ∧ area.x + area.width < pow2 16 ∧ area.y + 1 < pow2 16 ∧
      v.editor.cursor = 40 ∧ cursorPlace area v = .shown 38 11 := by
  intro v area
  obtain ⟨hcursor, hlive⟩ : v.editor.cursor = 40 ∧ v.viewing = none :=
    cursor_typed (Visualizer.new (.new {}) 0) 'a' 40
  have hx : area.x + area.width < pow2 16 := by decide
  have hy : area.y + 1 < pow2 16 := by decide
  obtain ⟨-, hright, -⟩ :=
    cursor_drawn_by_words (.new {}) 0 (List.replicate 40 (.key (.char 'a') false)) area hlive hx hy
  have hplace := hright.2 (by rw [hcursor]; decide)
  rw [hcursor] at hplace
  exact ⟨hlive, hx, hy, hcursor, hplace⟩

/-- Behind as many characters as there are words, the cursor is drawn on the first one. -/
theorem cursor_jumps_back :
    let v := (Visualizer.new (.new {}) 1048576).runAll
      (List.replicate (pow2 16) (.key (.char 'a') false))
    v.viewing = none ∧ v.editor.cursor = pow2 16 ∧
      (v.draw smallLayout).2.cursor = .shown 3 11 ∧
      cursorColumn smallLayout.command v.editor.cursor = 38 := by
  -- Nothing evaluates so many keys: what they do is known from `cursor_typed`.
  show (Visualizer.runAll _ _).viewing = none ∧
    (Visualizer.runAll _ _).editor.cursor = pow2 16 ∧ _ ∧ _
  obtain ⟨hcursor, hlive⟩ := cursor_typed (Visualizer.new (.new {}) 1048576) 'a' (pow2 16)
  have hstart : (Visualizer.new (.new {}) 1048576).editor.cursor = 0 := rfl
  have hnew : (Visualizer.new (.new {}) 1048576).viewing = none := rfl
  rw [hstart, Nat.zero_add] at hcursor
  rw [hnew] at hlive
  refine ⟨hlive, hcursor, ?_, ?_⟩
  · have hword : pow2 16 % pow2 16 = 0 := Nat.mod_self _
    rw [cursor_draw, cursorPlace_eq hlive, hcursor, hword]
    · decide
    · decide
    · decide
  · have hwords : pow2 16 = 65536 := rfl
    rw [hcursor, hwords]
    decide

end StackHeap.Visualizer
