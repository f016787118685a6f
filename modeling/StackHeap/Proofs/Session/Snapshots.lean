import StackHeap.Proofs.Session.Invariants
import StackHeap.Proofs.Session.Names

/-! # The text of a snapshot determines the state

All names that a line brings into the memory are read as identifiers (`named_of_plan`), so the
snapshot of any session is legible (`legible_snapshot`), provided that the name of the root frame,
which is not read from a line, keeps to one line itself.  Legible snapshots are determined by their
text (`snapshot_text_determines_state`). -/

namespace StackHeap

open Command Number Store Text Typing

namespace Session

/-- **The snapshot of a session is legible.** -/
theorem legible_snapshot {config : Config} (hroot : OneLine config.rootFrame) (lines : List String)
    (hu : ((new config).runAll lines).memory.addresses.used ≤ pow2 53) :
    ((new config).runAll lines).snapshot.Legible := by
  obtain ⟨ops, hops, hm⟩ := (new config).exists_operations_of
    (C := fun op => op.WellTyped ∧ op.Named)
    (fun hp => ⟨(proper_of_plan hp).wellTyped, named_of_plan hp⟩) lines
  rw [snapshot, hm]
  rw [hm] at hu
  obtain ⟨hs, ht, hn⟩ := Memory.Sound.runAll_induction (P := fun m => m.Typed ∧ m.Named)
    (fun op h => h.1.addressFree)
    (fun hs hp hc hstep => ⟨hstep.typed hs hp.1 hc.1, hstep.named hs.stack hp.2 hc.2⟩)
    (.new config) ⟨.new config, .new hroot⟩ hops hu
  exact hn.legible hs ht

end Session

/-- **The text of a snapshot determines the state.**  Two sessions under any configurations, whose
root frames have names on one line, as identifiers are, and in which at most `2 ^ 53` addresses each
were handed out: if their snapshots have the same text, they are the same, with the same frames and
slots and the same heap entries in the same order. -/
theorem snapshot_text_determines_state {config config' : Config} {lines lines' : List String}
    (hroot : OneLine config.rootFrame) (hroot' : OneLine config'.rootFrame)
    (hu : ((Session.new config).runAll lines).memory.addresses.used ≤ pow2 53)
    (hu' : ((Session.new config').runAll lines').memory.addresses.used ≤ pow2 53)
    (h : ((Session.new config).runAll lines).snapshot.text =
      ((Session.new config').runAll lines').snapshot.text) :
    ((Session.new config).runAll lines).snapshot = ((Session.new config').runAll lines').snapshot :=
  Snapshot.text_injOn (Session.legible_snapshot hroot lines hu)
    (Session.legible_snapshot hroot' lines' hu') h

/-- A detour through an inner frame and a rejected line do not show, nor does how lines are spelled;
the strings contain the marks that the text is built with. -/
theorem snapshot_text_determines_state_detour :
    ((Session.new {}).runAll ["double d = -2.5e-3;", "char c = '\\n';",
      "Cat a = (age=3, name=\"x, \x7d\");", "Cat[] b = {a, null};"]).snapshot =
    ((Session.new {}).runAll ["enter f();", "leave;", "double d =-0.0025;", "char c='\\n' ;",
      "e = d;", "Cat a = new Cat(int age=3, name=\"x, \x7d\");", "Cat[] b={a,null};"]).snapshot :=
  snapshot_text_determines_state (by decide +kernel) (by decide +kernel) (by decide +kernel)
    (by decide +kernel) (by decide +kernel)

/-- A line feed in the name of a root frame can fake a frame. -/
example : ∃ config : Config,
    ((Session.new config).runAll []).snapshot.text =
      ((Session.new {}).runAll ["enter f();"]).snapshot.text ∧
    ((Session.new config).runAll []).snapshot ≠ ((Session.new {}).runAll ["enter f();"]).snapshot :=
  ⟨{ rootFrame := "main\n    (empty)\n  #1 f" }, by decide +kernel, by decide +kernel⟩

end StackHeap
