import StackHeap.Proofs.Visualizer.Consistency

/-! # Browsing as a position

While no line is submitted, all that browsing does is to move a position in the history
(`Visualizer.moved`): Ctrl+P moves it back by one and Ctrl+N on by one, neither past an end, and
nothing else moves it.

The live state and the newest state of the history are one position.  The index of the state shown is
kept only while there is a newer one, so it can be read off the position
(`Consistent.viewing_eq`), and what is shown is the state at the position in either case
(`Consistent.get?_position`). -/

namespace StackHeap.Visualizer

variable {v : Visualizer} {start : Session} {lines : List String} {event : Event}
  {events : List Event}

/-! ### Positions -/

/-- The position in the history of the state shown. -/
def position (v : Visualizer) : Nat := v.viewing.getD v.latestIndex

/-- Ctrl+P. -/
def Event.older : Event := .key (.char 'p') true

/-- Ctrl+N. -/
def Event.newer : Event := .key (.char 'n') true

/-- Where an event moves a position in a history of `n` states. -/
def moved (n position : Nat) (event : Event) : Nat :=
  if event = .older then position - 1
  else if event = .newer then min (position + 1) (n - 1)
  else position

theorem foldl_moved_older (n position k : Nat) :
    (List.replicate k Event.older).foldl (moved n) position = position - k := by
  induction k generalizing position with
  | zero => rfl
  | succ k ih =>
      rw [List.replicate_succ, List.foldl_cons, ih]
      show position - 1 - k = position - (k + 1)
      omega

theorem foldl_moved_newer {n position : Nat} (hp : position ≤ n - 1) (k : Nat) :
    (List.replicate k Event.newer).foldl (moved n) position = min (position + k) (n - 1) := by
  induction k generalizing position with
  | zero => exact (Nat.min_eq_left hp).symm
  | succ k ih =>
      have hstep : moved n position .newer = min (position + 1) (n - 1) := rfl
      rw [List.replicate_succ, List.foldl_cons, hstep, ih (Nat.min_le_right _ _)]
      omega

/-! ### Keys -/

theorem position_browseOlder (v : Visualizer) : v.browseOlder.position = v.position - 1 := by
  unfold browseOlder
  split
  · next hz =>
    show v.position = v.position - 1
    rw [position, hz]
  · next i hi =>
    show i = v.position - 1
    rw [position, hi]
    rfl

theorem position_browseNewer (v : Visualizer) :
    v.browseNewer.position = min (v.position + 1) (v.history.length - 1) := by
  unfold browseNewer position
  split
  · next hv =>
    rw [hv, Option.getD_none, latestIndex]
    omega
  · next i hv =>
    rw [hv, Option.getD_some]
    split
    · next hle =>
      rw [latestIndex] at hle
      show v.history.length - 1 = _
      omega
    · next hlt =>
      rw [latestIndex] at hlt
      show i + 1 = _
      omega

theorem history_browseOlder (v : Visualizer) : v.browseOlder.history = v.history := by
  unfold browseOlder
  split <;> rfl

theorem history_browseNewer (v : Visualizer) : v.browseNewer.history = v.history := by
  unfold browseNewer
  split
  · rfl
  · split <;> rfl

/-- A change of something else leaves the history and the position alone. -/
theorem position_congr {w : Visualizer} (hh : w.history = v.history) (hv : w.viewing = v.viewing) :
    w.position = v.position := by
  rw [position, position, latestIndex, latestIndex, hh, hv]

/-- Recall is about the command line only. -/
theorem recallOlder_keeps (v : Visualizer) :
    v.recallOlder.history = v.history ∧ v.recallOlder.viewing = v.viewing := by
  unfold recallOlder
  split <;> exact ⟨rfl, rfl⟩

theorem recallNewer_keeps (v : Visualizer) :
    v.recallNewer.history = v.history ∧ v.recallNewer.viewing = v.viewing := by
  unfold recallNewer
  split
  · exact ⟨rfl, rfl⟩
  · split <;> exact ⟨rfl, rfl⟩

/-- An event that submits nothing and does not browse leaves the history and the index alone. -/
theorem keeps_of_not_browsing (hs : v.submittedLine? event = none) (ho : event ≠ .older)
    (hn : event ≠ .newer) :
    (v.after event).history = v.history ∧ (v.after event).viewing = v.viewing := by
  cases event with
  | draw layout => exact ⟨rfl, rfl⟩
  | key key ctrl =>
      cases key with
      | up => exact v.recallOlder_keeps
      | down => exact v.recallNewer_keeps
      | enter =>
          have hblank : Text.trim v.editor.text = [] := by
            by_contra hne
            simp only [submittedLine?, if_neg hne] at hs
            cases hs
          simp only [after, press, submit, if_pos hblank, and_self]
      | char c =>
          cases ctrl with
          | false => exact ⟨rfl, rfl⟩
          | true =>
              simp only [after, press, Bool.not_true, Bool.false_eq_true, if_false]
              split
              · exact ⟨rfl, rfl⟩
              · exact absurd rfl ho
              · exact absurd rfl hn
              · exact ⟨rfl, rfl⟩
      | _ => exact ⟨rfl, rfl⟩

/-- **An event that submits nothing moves the position** and keeps the history. -/
theorem position_after (hs : v.submittedLine? event = none) :
    (v.after event).history = v.history ∧
      (v.after event).position = moved v.history.length v.position event := by
  unfold moved
  split
  · next ho =>
    subst ho
    exact ⟨v.history_browseOlder, v.position_browseOlder⟩
  · next ho =>
    split
    · next hn =>
      subst hn
      exact ⟨v.history_browseNewer, v.position_browseNewer⟩
    · next hn =>
      obtain ⟨hh, hv⟩ := keeps_of_not_browsing hs ho hn
      exact ⟨hh, position_congr hh hv⟩

/-- So do events in turn. -/
theorem position_runAll (hs : v.submittedLines events = []) :
    (v.runAll events).history = v.history ∧
      (v.runAll events).position = events.foldl (moved v.history.length) v.position := by
  induction events generalizing v with
  | nil => exact ⟨rfl, rfl⟩
  | cons event events ih =>
      rw [submittedLines, List.append_eq_nil_iff, Option.toList_eq_nil_iff] at hs
      obtain ⟨hh, hp⟩ := position_after hs.1
      obtain ⟨hh', hp'⟩ := ih hs.2
      refine ⟨hh'.trans hh, hp'.trans ?_⟩
      rw [hh, hp, List.foldl_cons]

/-- Keys other than Enter submit nothing. -/
theorem submittedLines_eq_nil (he : ∀ event ∈ events, ∀ ctrl, event ≠ .key .enter ctrl) :
    v.submittedLines events = [] := by
  induction events generalizing v with
  | nil => rfl
  | cons event events ih =>
      have hevent : v.submittedLine? event = none := by
        unfold submittedLine?
        split
        · exact absurd rfl (he _ List.mem_cons_self _)
        · rfl
      rw [submittedLines, hevent, Option.toList_none, List.nil_append]
      exact ih fun e hmem => he e (List.mem_cons_of_mem _ hmem)

/-! ### What is shown -/

namespace Consistent

theorem position_lt (hc : v.Consistent start lines) : v.position < v.history.length := by
  cases hv : v.viewing with
  | some i =>
      have hi := hc.viewing i hv
      rw [position, hv, Option.getD_some]
      omega
  | none =>
      obtain ⟨r, hr, -⟩ := hc.latest
      have hpos : 0 < v.history.length :=
        List.length_pos_of_mem (List.mem_of_getLast? hr)
      rw [position, hv, Option.getD_none, latestIndex]
      omega

/-- The index of the state shown is kept while there is a newer state. -/
theorem viewing_eq (hc : v.Consistent start lines) :
    v.viewing = if v.position < v.history.length - 1 then some v.position else none := by
  cases hv : v.viewing with
  | some i =>
      have hi := hc.viewing i hv
      rw [position, hv, Option.getD_some, if_pos (by omega)]
  | none =>
      rw [position, hv, Option.getD_none, latestIndex, if_neg (Nat.lt_irrefl _)]

/-- **The state shown is the one at the position.** -/
theorem get?_position (hc : v.Consistent start lines) :
    ∃ r, v.history.get? v.position = some r ∧ v.displayed = r.snapshot := by
  cases hv : v.viewing with
  | some i =>
      rw [position, hv, Option.getD_some]
      exact hc.displayed_of_viewing hv
  | none =>
      obtain ⟨r, hr, hlive⟩ := hc.latest
      refine ⟨r, ?_, ?_⟩
      · rw [position, hv, Option.getD_none, latestIndex, History.get?, History.length,
          ← List.getLast?_eq_getElem?]
        exact hr
      · rw [displayed_of_live v hv]
        exact hlive.symm

/-- The position and the history tell what is shown. -/
theorem displayed_congr {w : Visualizer} {start' : Session} {lines' : List String}
    (hc : v.Consistent start lines) (hw : w.Consistent start' lines')
    (hh : w.history = v.history) (hp : w.position = v.position) :
    w.viewing = v.viewing ∧ w.displayed = v.displayed := by
  constructor
  · rw [hw.viewing_eq, hc.viewing_eq, hh, hp]
  · obtain ⟨r, hr, hd⟩ := hc.get?_position
    obtain ⟨r', hr', hd'⟩ := hw.get?_position
    rw [hh, hp, hr] at hr'
    rw [hd, hd', Option.some.inj hr']

end Consistent

/-- **Browsing is a saturating position in the history.**  From any state that can be reached, with
`n` states in the history, events that submit nothing keep the history and move the position.  The
state shown is the one at the position, and its index is kept exactly below the newest state.  As many
steps on as back lead to where they began, to the live state from there, if there were that many
states to go back to. -/
theorem browsing_moves_position (start : Session) (budget : Nat) (events : List Event) :
    let v := (Visualizer.new start budget).runAll events
    let n := v.history.length
    (∀ further, v.submittedLines further = [] →
      let w := v.runAll further
      let position := further.foldl (moved n) (v.viewing.getD (n - 1))
      w.history = v.history ∧
        (∃ r, w.history.get? position = some r ∧ w.displayed = r.snapshot) ∧
        (w.viewing = if position < n - 1 then some position else none)) ∧
      ∀ k ≤ v.viewing.getD (n - 1),
        let w := v.runAll (List.replicate k .older ++ List.replicate k .newer)
        w.viewing = v.viewing ∧ w.displayed = v.displayed ∧
          (v.viewing = none → w.displayed = w.live) := by
  intro v n
  have hc : v.Consistent start ((Visualizer.new start budget).submittedLines events) :=
    (Consistent.new start budget).runAll events
  refine ⟨fun further hs => ?_, fun k hk => ?_⟩
  · intro w position
    have hw := hc.runAll further
    obtain ⟨hh, hp⟩ := position_runAll hs
    have hshown := hw.get?_position
    have hviewing := hw.viewing_eq
    rw [hp] at hshown hviewing
    rw [hh] at hviewing
    exact ⟨hh, hshown, hviewing⟩
  · intro w
    have hs : v.submittedLines (List.replicate k .older ++ List.replicate k .newer) = [] := by
      apply submittedLines_eq_nil
      intro event hmem ctrl
      rcases List.mem_append.1 hmem with hmem | hmem
      · rw [List.eq_of_mem_replicate hmem]
        exact fun h => by cases h
      · rw [List.eq_of_mem_replicate hmem]
        exact fun h => by cases h
    obtain ⟨hh, hp⟩ := position_runAll hs
    have hlt := hc.position_lt
    -- Back by `k` and on by `k` without reaching an end.
    have hback : v.position - k + k = v.position := Nat.sub_add_cancel hk
    have hw : w.position = v.position := by
      rw [List.foldl_append, foldl_moved_older, foldl_moved_newer (by omega), hback] at hp
      exact hp.trans (Nat.min_eq_left (Nat.le_sub_one_of_lt hlt))
    obtain ⟨hviewing, hdisplayed⟩ := hc.displayed_congr (hc.runAll _) hh hw
    exact ⟨hviewing, hdisplayed,
      fun hlive => Consistent.displayed_of_live w (hviewing.trans hlive)⟩

end StackHeap.Visualizer
