import StackHeap.Proofs.Session.Invariants
import StackHeap.Visualizer.Draw

/-! # The visualizer stays consistent

Keys are pressed and screens are drawn in any order.  Whatever comes, the visualizer shows states of
one session, which has run the lines submitted and nothing else (`Visualizer.Consistent`).

* **Indices.**  The state shown while browsing and the command recalled last are indices into lists
  that change.  The history may drop all but its newest state when a line is submitted, but
  submitting ends browsing, and the list of commands only grows.
* **Events.**  Only Enter on a line that is not blank reaches the session (`Consistent.submit`).
  Every other key, and drawing, changes what it is for and leaves the rest alone. -/

namespace StackHeap

namespace Visualizer

/-! ### The line editor -/

namespace Editor

variable {e : Editor}

/-- The cursor stands within the text. -/
def Within (e : Editor) : Prop := e.cursor ≤ e.text.length

theorem within_ofText (text : List Char) : (ofText text).Within := Nat.le_refl _

theorem Within.insert (h : e.Within) (c : Char) : (e.insert c).Within := by
  have hb := length_before h
  have hl := congrArg List.length e.before_append_after
  rw [Within, insert_eq]
  simp only [List.length_append, List.length_cons] at hl ⊢
  omega

theorem Within.backspace (h : e.Within) : e.backspace.Within := by
  rw [backspace_eq h]
  split
  · exact h
  · next hc =>
    simp only [Within, List.length_eraseIdx] at h ⊢
    split <;> omega

theorem Within.delete (h : e.Within) : e.delete.Within := by
  rw [delete_eq]
  simp only [Within, List.length_eraseIdx] at h ⊢
  split <;> omega

theorem Within.left (h : e.Within) : e.left.Within := Nat.le_trans (Nat.sub_le _ _) h

theorem within_right (e : Editor) : e.right.Within := Nat.min_le_right _ _

theorem within_home (e : Editor) : e.home.Within := Nat.zero_le _

theorem within_toEnd (e : Editor) : e.toEnd.Within := Nat.le_refl _

end Editor

/-! ### Events -/

/-- What happens to the visualizer; a screen may be divided in any way when it is drawn. -/
inductive Event where
  | key (key : Key) (ctrl : Bool)
  | draw (layout : Layout)
deriving DecidableEq, Repr

variable {v : Visualizer} {start : Session} {lines : List String} {command : String}

/-- The visualizer after an event. -/
def after (v : Visualizer) : Event → Visualizer
  | .key key ctrl => v.press key ctrl
  | .draw layout => (v.draw layout).1

/-- The visualizer after events in turn. -/
def runAll (v : Visualizer) (events : List Event) : Visualizer := events.foldl after v

/-- The line that an event submits: the trimmed command line, at Enter and unless it is blank. -/
def submittedLine? (v : Visualizer) : Event → Option String
  | .key .enter _ =>
    if Text.trim v.editor.text = [] then none else some (trimmed (String.ofList v.editor.text))
  | _ => none

/-- The lines that events submit. -/
def submittedLines (v : Visualizer) : List Event → List String
  | [] => []
  | event :: events => (v.submittedLine? event).toList ++ (v.after event).submittedLines events

theorem submittedLine?_of_ne {key : Key} (hk : key ≠ .enter) (ctrl : Bool) :
    v.submittedLine? (.key key ctrl) = none := by
  unfold submittedLine?
  split
  · next heq => exact absurd (Event.key.inj heq).1 hk
  · rfl

/-! ### Consistency -/

/-- The visualizer of a session that has run some lines since the start. -/
structure Consistent (start : Session) (lines : List String) (v : Visualizer) : Prop where
  session : v.session = start.runAll lines
  live : v.live = v.session.snapshot
  latest : ∃ r, v.history.latest? = some r ∧ r.snapshot = v.live
  count : v.history.length + v.history.evicted = 1 + lines.length
  viewing : ∀ i, v.viewing = some i → i + 1 < v.history.length
  recalled : ∀ i, v.recalled = some i → i < v.submitted.length
  /-- No two neighbouring commands to recall are equal. -/
  submitted : v.submitted.IsChain (· ≠ ·)
  editor : v.editor.Within

namespace Consistent

theorem new (start : Session) (budget : Nat) :
    (Visualizer.new start budget).Consistent start [] where
  session := rfl
  live := rfl
  latest := ⟨_, History.latest?_push _ _ _, rfl⟩
  count := History.length_add_evicted_push _ _ _
  viewing i hi := by cases hi
  recalled i hi := by cases hi
  submitted := .nil
  editor := Nat.le_refl _

theorem edit (hc : v.Consistent start lines) {f : Editor → Editor} (hf : (f v.editor).Within) :
    (v.edit f).Consistent start lines := { hc with editor := hf }

theorem runCommand (hc : v.Consistent start lines) (command : String) :
    (v.runCommand command).Consistent start (lines ++ [command]) where
  session := by
    rw [Session.runAll_append, ← hc.session]
    rfl
  live := rfl
  latest := ⟨_, History.latest?_push _ _ _, rfl⟩
  count := by
    have hcount := hc.count
    apply (v.history.length_add_evicted_push command _).trans
    rw [List.length_append, List.length_singleton]
    omega
  viewing i hi := by cases hi
  recalled i hi := by cases hi
  submitted := by
    show (if v.submitted.getLast? = some command then v.submitted
      else v.submitted ++ [command]).IsChain (· ≠ ·)
    split
    · exact hc.submitted
    · next hlast =>
      apply List.IsChain.append hc.submitted (.singleton _)
      intro x hx y hy hxy
      rw [List.head?_cons, Option.mem_some] at hy
      rw [Option.mem_def, hxy, ← hy] at hx
      exact hlast hx
  editor := Nat.le_refl _

theorem submit (hc : v.Consistent start lines) (ctrl : Bool) :
    v.submit.Consistent start (lines ++ (v.submittedLine? (.key .enter ctrl)).toList) := by
  simp only [Visualizer.submit, submittedLine?]
  split
  · rw [Option.toList_none, List.append_nil]
    exact hc
  · rw [Option.toList_some, trimmed, String.toList_ofList]
    exact hc.runCommand _

theorem view {i : Nat} (hc : v.Consistent start lines) (hi : i + 1 < v.history.length) :
    (v.view i).Consistent start lines := { hc with
  viewing := fun j hj => by
    rw [← Option.some.inj hj]
    exact hi }

theorem browseOlder (hc : v.Consistent start lines) : v.browseOlder.Consistent start lines := by
  unfold Visualizer.browseOlder
  split
  · exact { hc with }
  · next i hi =>
    apply hc.view
    cases hv : v.viewing with
    | none =>
        rw [hv, Option.getD_none, latestIndex] at hi
        omega
    | some j =>
        have hj := hc.viewing j hv
        rw [hv, Option.getD_some] at hi
        omega

theorem browseNewer (hc : v.Consistent start lines) : v.browseNewer.Consistent start lines := by
  unfold Visualizer.browseNewer
  split
  · exact hc
  · next i hi =>
    split
    · exact { hc with viewing := fun j hj => by cases hj }
    · next hlt =>
      apply hc.view
      rw [latestIndex] at hlt
      omega

theorem recallAt {i : Nat} (hc : v.Consistent start lines) (hi : i < v.submitted.length) :
    (v.recallAt i).Consistent start lines := { hc with
  recalled := fun j hj => by
    rw [← Option.some.inj hj]
    exact hi
  editor := Editor.within_ofText _ }

theorem recallOlder (hc : v.Consistent start lines) : v.recallOlder.Consistent start lines := by
  unfold Visualizer.recallOlder
  split
  · exact hc
  · next hne =>
    apply hc.recallAt
    have hpos : 0 < v.submitted.length := by
      rw [List.length_pos_iff]
      simpa using hne
    cases hr : v.recalled with
    | none =>
        rw [Option.getD_none]
        omega
    | some j =>
        have hj := hc.recalled j hr
        rw [Option.getD_some]
        omega

theorem recallNewer (hc : v.Consistent start lines) : v.recallNewer.Consistent start lines := by
  unfold Visualizer.recallNewer
  split
  · exact hc
  · next i hi =>
    split
    · next hlt => exact hc.recallAt hlt
    · exact { hc with
        recalled := fun j hj => by cases hj
        editor := Nat.le_refl _ }

/-- **A key other than Enter leaves the session alone.** -/
theorem press {key : Key} (hc : v.Consistent start lines) (hk : key ≠ .enter) (ctrl : Bool) :
    (v.press key ctrl).Consistent start lines := by
  cases key with
  | enter => exact absurd rfl hk
  | up => exact hc.recallOlder
  | down => exact hc.recallNewer
  | left => exact hc.edit hc.editor.left
  | right => exact hc.edit (Editor.within_right _)
  | home => exact hc.edit (Editor.within_home _)
  | toEnd => exact hc.edit (Editor.within_toEnd _)
  | backspace => exact hc.edit hc.editor.backspace
  | delete => exact hc.edit hc.editor.delete
  | char c =>
      simp only [Visualizer.press]
      split
      · exact hc.edit (hc.editor.insert c)
      · split
        · exact { hc with }
        · exact hc.browseOlder
        · exact hc.browseNewer
        · exact hc
  | esc => exact { hc with }
  | tab => exact { hc with }
  | backTab => exact { hc with }
  | pageUp => exact { hc with }
  | pageDown => exact { hc with }
  | other => exact hc

/-- **An event keeps the visualizer consistent.** -/
theorem after (hc : v.Consistent start lines) (event : Event) :
    (v.after event).Consistent start (lines ++ (v.submittedLine? event).toList) := by
  have hnil : lines ++ (none : Option String).toList = lines := List.append_nil lines
  cases event with
  | draw layout =>
      have hdraw : v.submittedLine? (.draw layout) = none := rfl
      rw [hdraw, hnil]
      exact { hc with }
  | key key ctrl =>
      by_cases hk : key = .enter
      · subst hk
        exact hc.submit ctrl
      · rw [submittedLine?_of_ne hk, hnil]
        exact hc.press hk ctrl

theorem runAll (hc : v.Consistent start lines) (events : List Event) :
    (v.runAll events).Consistent start (lines ++ v.submittedLines events) := by
  induction events generalizing v lines with
  | nil =>
      rw [submittedLines, List.append_nil]
      exact hc
  | cons event events ih =>
      rw [submittedLines, ← List.append_assoc]
      exact ih (hc.after event)

/-- The state shown while browsing is the one of its index in the history. -/
theorem displayed_of_viewing {i : Nat} (hc : v.Consistent start lines) (hi : v.viewing = some i) :
    ∃ r, v.history.get? i = some r ∧ v.displayed = r.snapshot := by
  have hlt := hc.viewing i hi
  rw [History.length] at hlt
  have hget : v.history.get? i = some (v.history.records[i]) :=
    List.getElem?_eq_getElem (by omega)
  refine ⟨_, hget, ?_⟩
  rw [displayed, hi, Option.bind_some, hget]
  rfl

theorem displayed_of_live (v : Visualizer) (hv : v.viewing = none) : v.displayed = v.live := by
  rw [displayed, hv]
  rfl

end Consistent

/-- **The visualizer stays consistent.**  After any keys and draws it shows states of the session
that has run the lines submitted, and the state shown while browsing is the one of its index. -/
theorem stays_consistent (start : Session) (budget : Nat) (events : List Event) :
    let v := (Visualizer.new start budget).runAll events
    v.Consistent start ((Visualizer.new start budget).submittedLines events) ∧
      (v.viewing = none → v.displayed = v.live) ∧
      ∀ i, v.viewing = some i → ∃ r, v.history.get? i = some r ∧ v.displayed = r.snapshot := by
  intro v
  have hc : v.Consistent start ((Visualizer.new start budget).submittedLines events) :=
    (Consistent.new start budget).runAll events
  refine ⟨hc, ?_, ?_⟩
  · exact Consistent.displayed_of_live v
  · exact fun i hi => hc.displayed_of_viewing hi

end Visualizer

end StackHeap
