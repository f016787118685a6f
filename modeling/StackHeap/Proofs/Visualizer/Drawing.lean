import StackHeap.Proofs.Visualizer.Consistency

/-! # What drawing does to the panes

Drawing hands the terminal a list of lines for each pane that has content, and keeps the offset from
which the list was taken.  The areas of the panes may be any.

* **Lists.**  From three rows on there is room for the lines inside the border.  A list starts at the
  offset kept, which is the least of the one before and of the lines that have no room (`listed_spec`).
* **Notes.**  The stack pane is always a list.  The other two show a note while they are empty, and
  keep their offset then, though it lies past their end (`listedOr_nil`).
* **Drawing again** finds every offset where it belongs and hands over the same (`draw_draw`). -/

namespace StackHeap.Visualizer

/-! ### Lists -/

/-- What is handed over is a list of lines. -/
def Widget.Lists (w : Widget) (lines : List Line) : Prop := ∃ block, w = .list block lines

section

variable {note : String} {b : Block} {indent height offset : Nat} {lines : List Line}

theorem visibleLines_eq (h : 3 ≤ height) : visibleLines height = height - 2 :=
  Nat.max_eq_left (by omega)

theorem clamp_clamp (offset total height : Nat) :
    clamp (clamp offset total height) total height = clamp offset total height := by
  rw [clamp, clamp, Nat.min_assoc, Nat.min_self]

/-- **A list starts at the offset brought back to it** and fills the room inside the border. -/
theorem listed_spec (b : Block) (h : 3 ≤ height) (offset : Nat) (lines : List Line) :
    (listed b height offset lines).1 = min offset (lines.length - (height - 2)) ∧
      (listed b height offset lines).2.Lists
        ((lines.drop (listed b height offset lines).1).take (height - 2)) := by
  have hroom := visibleLines_eq h
  constructor
  · rw [listed, clamp, hroom]
  · refine ⟨b, ?_⟩
    rw [listed, window, hroom]

theorem listed_listed (b : Block) (height offset : Nat) (lines : List Line) :
    listed b height (listed b height offset lines).1 lines = listed b height offset lines := by
  simp only [listed, clamp_clamp]

theorem listedOr_of_ne_nil (h : lines ≠ []) :
    listedOr note b indent height offset lines =
      listed { b with indent := indent } height offset lines := by
  rw [listedOr, List.isEmpty_eq_false_iff.2 h, if_neg Bool.false_ne_true]

/-- Without lines the offset stays as it is. -/
theorem listedOr_nil : (listedOr note b indent height offset []).1 = offset := rfl

theorem listedOr_listedOr (note : String) (b : Block) (indent height offset : Nat)
    (lines : List Line) :
    listedOr note b indent height (listedOr note b indent height offset lines).1 lines =
      listedOr note b indent height offset lines := by
  cases lines with
  | nil => rfl
  | cons line lines =>
      rw [listedOr_of_ne_nil (List.cons_ne_nil line lines),
        listedOr_of_ne_nil (List.cons_ne_nil line lines), listed_listed]

end

/-- Drawing again hands over the same and leaves every offset where it is. -/
theorem draw_draw (v : Visualizer) (l : Layout) : (v.draw l).1.draw l = v.draw l := by
  have hstack : (v.draw l).1.stackPane l.stack.height = v.stackPane l.stack.height := listed_listed ..
  have hheap : (v.draw l).1.heapPane l.heap.height = v.heapPane l.heap.height := listedOr_listedOr ..
  have htranscript : (v.draw l).1.transcriptPane l.transcript.height =
      v.transcriptPane l.transcript.height := listedOr_listedOr ..
  rw [draw, hstack, hheap, htranscript]
  rfl

/-! ### Content -/

theorem heapLines_eq_nil {s : Snapshot} : heapLines s = [] ↔ s.heap = [] := by
  rw [heapLines, List.flatMap_eq_nil_iff, List.eq_nil_iff_forall_not_mem]
  simp [entryLines]

theorem transcriptLines_eq_nil {s : Session} : transcriptLines s = [] ↔ s.transcript = [] := by
  rw [transcriptLines, List.flatMap_eq_nil_iff, List.eq_nil_iff_forall_not_mem]
  simp [commandLines]

/-! ### Drawing -/

/-- **Drawing brings panes with content back to it.**  After any keys and draws, and in areas of at
least three rows, drawing changes nothing but scroll offsets.  That of the stack pane becomes the least
of itself and of the lines without room, and so do those of the other two if they have content; a pane
that is empty keeps its offset as it is.  A pane with content lists the lines from its offset on that
have room, and drawing once more changes nothing and hands over the same. -/
theorem drawing_brings_back (start : Session) (budget : Nat) (events : List Event) {l : Layout}
    (hstack : 3 ≤ l.stack.height) (hheap : 3 ≤ l.heap.height)
    (htranscript : 3 ≤ l.transcript.height) :
    let v := (Visualizer.new start budget).runAll events
    let w := (v.draw l).1
    let screen := (v.draw l).2
    let stack := stackLines v.displayed
    let heap := heapLines v.displayed
    let transcript := transcriptLines v.session
    w = { v with scroll := w.scroll } ∧
      (w.scroll.stack = min v.scroll.stack (stack.length - (l.stack.height - 2)) ∧
        screen.stack.Lists ((stack.drop w.scroll.stack).take (l.stack.height - 2))) ∧
      (v.displayed.heap ≠ [] →
        w.scroll.heap = min v.scroll.heap (heap.length - (l.heap.height - 2)) ∧
          screen.heap.Lists ((heap.drop w.scroll.heap).take (l.heap.height - 2))) ∧
      (v.displayed.heap = [] → w.scroll.heap = v.scroll.heap) ∧
      (v.session.transcript ≠ [] →
        w.scroll.transcript =
            min v.scroll.transcript (transcript.length - (l.transcript.height - 2)) ∧
          screen.transcript.Lists
            ((transcript.drop w.scroll.transcript).take (l.transcript.height - 2))) ∧
      (v.session.transcript = [] → w.scroll.transcript = v.scroll.transcript) ∧
      w.draw l = v.draw l := by
  intro v w screen stack heap transcript
  refine ⟨rfl, listed_spec _ hstack _ _, fun hne => ?_, fun hempty => ?_, fun hne => ?_,
    fun hempty => ?_, v.draw_draw l⟩
  · have hlines : heap ≠ [] := fun hnil => hne (heapLines_eq_nil.1 hnil)
    show (v.heapPane l.heap.height).1 = _ ∧ (v.heapPane l.heap.height).2.Lists
      ((heap.drop (v.heapPane l.heap.height).1).take (l.heap.height - 2))
    rw [heapPane, listedOr_of_ne_nil hlines]
    exact listed_spec _ hheap _ _
  · show (v.heapPane l.heap.height).1 = _
    rw [heapPane, heapLines_eq_nil.2 hempty, listedOr_nil]
  · have hlines : transcript ≠ [] := fun hnil => hne (transcriptLines_eq_nil.1 hnil)
    show (v.transcriptPane l.transcript.height).1 = _ ∧ (v.transcriptPane l.transcript.height).2.Lists
      ((transcript.drop (v.transcriptPane l.transcript.height).1).take (l.transcript.height - 2))
    rw [transcriptPane, listedOr_of_ne_nil hlines]
    exact listed_spec _ htranscript _ _
  · show (v.transcriptPane l.transcript.height).1 = _
    rw [transcriptPane, transcriptLines_eq_nil.2 hempty, listedOr_nil]

/-- The areas of a screen of 40 columns and 14 rows. -/
def smallLayout : Layout where
  stack := ⟨0, 0, 20, 10⟩
  heap := ⟨20, 0, 20, 6⟩
  transcript := ⟨20, 6, 20, 4⟩
  command := ⟨0, 10, 40, 3⟩
  status := ⟨0, 13, 22, 1⟩
  keys := ⟨22, 13, 18, 1⟩

/-- The keys that type a line and run it. -/
def typed (line : String) : List Event :=
  line.toList.map (fun c => .key (.char c) false) ++ [.key .enter false]

/-- Three objects are more than fit.  The stack pane and the heap pane were moved down by a page and
the transcript is at its end; all three come back to their content, each by another distance. -/
theorem drawing_brings_back_three_objects :
    let lines := ["object a = new object(id = 1);", "object b = new object(id = 2);",
      "object c = new object(id = 3);"]
    let v := (Visualizer.new (.new {}) 1048576).runAll
      (lines.flatMap typed ++ [.key .pageDown false, .key .tab false, .key .pageDown false])
    let w := (v.draw smallLayout).1
    let screen := (v.draw smallLayout).2
    v.displayed.heap ≠ [] ∧ v.session.transcript ≠ [] ∧ v.scroll = ⟨10, 10, bottom⟩ ∧
      w.scroll = ⟨0, 2, 4⟩ ∧
      screen.stack.Lists (stackLines v.displayed) ∧
      screen.heap.Lists (((heapLines v.displayed).drop 2).take 4) ∧
      screen.transcript.Lists (((transcriptLines v.session).drop 4).take 2) ∧
      w.draw smallLayout = v.draw smallLayout := by
  intro lines v w screen
  obtain ⟨hheap, htranscript, hscroll, hstackLines, hheapLines, htranscriptLines⟩ :
      v.displayed.heap ≠ [] ∧ v.session.transcript ≠ [] ∧ v.scroll = ⟨10, 10, bottom⟩ ∧
        (stackLines v.displayed).length = 4 ∧ (heapLines v.displayed).length = 6 ∧
        (transcriptLines v.session).length = 6 := by decide +kernel
  obtain ⟨-, ⟨hs, hstackLists⟩, hh, -, ht, -, hagain⟩ :=
    drawing_brings_back (.new {}) 1048576
      (lines.flatMap typed ++ [.key .pageDown false, .key .tab false, .key .pageDown false])
      (l := smallLayout) (by decide) (by decide) (by decide)
  obtain ⟨hh, hheapLists⟩ := hh hheap
  obtain ⟨ht, htranscriptLists⟩ := ht htranscript
  rw [hscroll, hstackLines] at hs
  rw [hscroll, hheapLines] at hh
  rw [hscroll, htranscriptLines] at ht
  have hdrawn : w.scroll = ⟨0, 2, 4⟩ :=
    Scroll.ext (hs.trans (by decide)) (hh.trans (by decide)) (ht.trans (by decide))
  rw [hdrawn] at hstackLists hheapLists htranscriptLists
  have hall : ((stackLines v.displayed).drop 0).take 8 = stackLines v.displayed :=
    List.take_of_length_le (by rw [List.drop_zero, hstackLines]; decide)
  exact ⟨hheap, htranscript, hscroll, hdrawn, hall ▸ hstackLists, hheapLists, htranscriptLists, hagain⟩

/-- A line that leaves no entry: the offset stays past the end of the heap, with nothing to show. -/
theorem empty_heap_keeps_offset :
    let v := (Visualizer.new (.new {}) 1048576).runAll
      (typed "int x = 1;" ++ [.key .tab false, .key .pageDown false])
    v.displayed.heap = [] ∧ smallLayout.heap.height = 6 ∧ v.scroll.heap = 10 ∧
      (v.draw smallLayout).1.scroll.heap = 10 ∧
      min v.scroll.heap ((heapLines v.displayed).length - (6 - 2)) = 0 := by
  decide +kernel

end StackHeap.Visualizer
