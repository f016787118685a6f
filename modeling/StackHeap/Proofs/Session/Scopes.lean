import StackHeap.Proofs.Session.Invariants
import StackHeap.Proofs.Store.Separation

/-! # Scopes leave no trace

A line that enters a frame opens a scope, and a later line that brings the depth back closes it.
Between the two the depth stays above that of the outer memory, so every command acts on a frame on
top of it and keeps it apart from what the scope does (`above_runAll`).  When the scope is closed
the outer memory is all there is: the snapshot is the one from before (`scopes_leave_no_trace`). -/

namespace StackHeap

open Command Number Store

namespace Session

variable {outer : Memory} {s : Session}

/-- A line in an inner scope leaves the outer memory alone. -/
theorem above_run {line : String} (hr : s.Reachable) (ha : outer.Above s.memory)
    (hd : outer.stack.depth < s.memory.stack.depth)
    (hu : (s.run line).1.memory.addresses.used ≤ pow2 53) :
    outer.Above (s.run line).1.memory := by
  have hs := hr.sound (Nat.le_trans (s.used_le_run line) hu)
  rcases memory_run s line with he | ⟨op, hop, he⟩
  · rw [he]
    exact ha
  · have hfree := hop.wellTyped.addressFree
    rw [he] at hu ⊢
    rcases op.after_cases hs hfree hu with ⟨-, -, -, hsame⟩ | ⟨answer, -, hstep⟩
    · rw [hsame]
      exact ha
    · exact hstep.above hs ha hd hfree hop.frame

/-- So do lines as long as the scope is open. -/
theorem above_runAll {lines : List String} (hr : s.Reachable) (ha : outer.Above s.memory)
    (hd : ∀ n ≤ lines.length,
      outer.stack.depth < (s.runAll (lines.take n)).memory.stack.depth)
    (hu : (s.runAll lines).memory.addresses.used ≤ pow2 53) :
    outer.Above (s.runAll lines).memory := by
  induction lines generalizing s with
  | nil => exact ha
  | cons line lines ih =>
      have hrun := above_run hr ha (hd 0 (Nat.zero_le _))
        (Nat.le_trans (used_le_runAll _ lines) hu)
      exact ih (hr.run line) hrun (fun n hn => hd (n + 1) (Nat.succ_le_succ hn)) hu

/-- Entering a frame opens a scope above the memory. -/
theorem above_enter {line name : String} (hc : classify line.toList = .ok (.enter name))
    (hok : (s.run line).2.ok = true) : s.memory.Above (s.run line).1.memory := by
  have hp : plan line.toList s.memory = .ok (.enter name) := by
    simp only [plan, hc]
    rfl
  cases he : (Operation.enter name).error? s.memory with
  | some e =>
      rw [run_of_error s line hp he] at hok
      cases hok
  | none =>
      obtain ⟨report, hr⟩ := run_of_ok s line hp he
      rw [hr]
      rcases Operation.resolves_enter s.memory name with ⟨e, hrun, -⟩ | ⟨answer, m, hrun, hstep⟩
      · rw [Operation.error?, hrun] at he
        cases he
      · rw [Operation.after, hrun]
        cases hstep with
        | enter hd =>
            refine ⟨.refl _, [⟨s.memory.stack.nextId, name, []⟩], rfl, fun f hf => ?_⟩
            rw [List.mem_singleton.1 hf]
            exact .nil

end Session

/-- **Scopes leave no trace.**  A line enters a frame, any lines follow while the depth stays above
what it was, and a last line brings it back.  All along, the outer frames and entries stay as they
are and nothing inside holds an outer entry; in the end the snapshot is the one from before. -/
theorem scopes_leave_no_trace {s : Session} {entering leaving name : String}
    {inside : List String} (hr : s.Reachable)
    (hclass : classify entering.toList = .ok (.enter name))
    (hok : (s.run entering).2.ok = true)
    (hinside : ∀ n ≤ inside.length, s.memory.stack.depth <
      ((s.run entering).1.runAll (inside.take n)).memory.stack.depth)
    (hback : (((s.run entering).1.runAll inside).run leaving).1.memory.stack.depth =
      s.memory.stack.depth)
    (hu : (((s.run entering).1.runAll inside).run leaving).1.memory.addresses.used ≤ pow2 53) :
    (((s.run entering).1.runAll inside).run leaving).1.snapshot = s.snapshot ∧
      ∀ n ≤ inside.length, s.memory.Above ((s.run entering).1.runAll (inside.take n)).memory := by
  have hopen := Session.above_enter hclass hok
  have hall := Nat.le_trans (Session.used_le_run _ leaving) hu
  -- Every part of the lines inside starts in the scope and ends in it.
  have hpart : ∀ n ≤ inside.length,
      s.memory.Above ((s.run entering).1.runAll (inside.take n)).memory := by
    intro n hn
    refine Session.above_runAll (hr.run entering) hopen (fun k hk => ?_) ?_
    · rw [List.take_take]
      exact hinside _ (Nat.le_trans (Nat.min_le_right _ _) hn)
    · have hrest := Session.used_le_runAll ((s.run entering).1.runAll (inside.take n))
        (inside.drop n)
      rw [← Session.runAll_append, List.take_append_drop] at hrest
      exact Nat.le_trans hrest hall
  refine ⟨?_, hpart⟩
  have hlast := hpart inside.length (Nat.le_refl _)
  have hd := hinside inside.length (Nat.le_refl _)
  rw [List.take_length] at hlast hd
  have hclosed := Session.above_run ((hr.run entering).runAll inside) hlast hd hu
  have hframes := hclosed.frames_eq hback
  have hused := Nat.le_trans (Session.used_le_run s entering)
    (Nat.le_trans (Session.used_le_runAll _ inside) hall)
  have hentries := hclosed.entries_eq (hr.sound hused)
    ((((hr.run entering).runAll inside).run leaving).sound hu) hframes
  simp only [Session.snapshot, Snapshot.ofMemory, hframes, hentries]

/-- A scope with an object, an array and a scope inside, and a line that is rejected. -/
theorem scopes_leave_no_trace_nested :
    (((((Session.new {}).runAll ["int x = 1;", "Cat a = (age=3);"]).run "enter f();").1.runAll
      ["Cat b = (age=1);", "Cat[] c = {b, b};", "x = 3;", "enter g();", "leave;"]).run
        "leave;").1.snapshot =
      ((Session.new {}).runAll ["int x = 1;", "Cat a = (age=3);"]).snapshot :=
  (scopes_leave_no_trace ⟨{}, _, rfl⟩
    (show classify "enter f();".toList = .ok (.enter "f") by decide +kernel) (by decide +kernel)
    (by decide +kernel) (by decide +kernel) (by decide +kernel)).1

end StackHeap
