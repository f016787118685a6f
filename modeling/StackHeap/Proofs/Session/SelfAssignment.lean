import StackHeap.Proofs.Session.Locality
import StackHeap.Proofs.Session.Names
import StackHeap.Proofs.Store.Separation
import StackHeap.Proofs.Store.Settled
import StackHeap.Proofs.Store.Structure

/-! # Every variable can be assigned to itself

A declared name was read as an identifier, so it is read as one again, and a line `n = n;` is an
assignment as long as `n` is not the keyword of a primitive type.  The variable is settled, whatever
its type, so the assignment succeeds and changes nothing (`self_assignment_changes_nothing`).

The invariant behind it (`Memory.Tidy`) holds in every session, with no bound on the addresses
handed out. -/

namespace StackHeap

open Command Store Typing

/-- All variables have identifiers for names and are settled. -/
structure Store.Memory.Tidy (config : Config) (m : Memory) : Prop where
  structured : m.Structured config
  named : ∀ x ∈ m.stack.slots, IsIdentifier x.name
  settled : ∀ x ∈ m.stack.slots, x.Settled

namespace Store.Memory.Tidy

variable {config : Config} {m : Memory}

theorem new (config : Config) : (Memory.new config).Tidy config where
  structured := .new config
  named _ hx := absurd hx List.not_mem_nil
  settled _ hx := absurd hx List.not_mem_nil

/-- An operation that declares identifiers only keeps the memory tidy, however it ends. -/
theorem after (ht : m.Tidy config) (op : Operation)
    (hd : ∀ name, op.declared? = some name → IsIdentifier name) : (op.after m).Tidy config where
  structured :=
    op.after_induction (P := Memory.Structured config) (fun hs hm => hs.move hm)
      (fun hs => hs.skip) ht.structured
  named y hy := by
    rcases op.arises ht.structured.stack y hy with hold | ⟨-, hdecl⟩ | ⟨-, hx, hn⟩
    · exact ht.named y hold
    · exact hd y.name hdecl
    · rw [← hn]
      exact ht.named _ hx
  settled y hy := by
    rcases op.arises ht.structured.stack y hy with hold | ⟨hs, -⟩ | ⟨hs, -, -⟩
    · exact ht.settled y hold
    · exact hs
    · exact hs

end Store.Memory.Tidy

namespace Session

variable {s : Session} {line : String} {cs : List Char} {m : Memory} {op : Operation}
  {name : String}

/-- What a named operation declares has an identifier for a name. -/
theorem isIdentifier_of_named (h : op.Named) (hd : op.declared? = some name) :
    IsIdentifier name := by
  cases op <;> cases hd <;> first | exact h | exact h.1

/-- Every session is tidy. -/
theorem Reachable.tidy (hr : s.Reachable) : ∃ config, s.memory.Tidy config := by
  obtain ⟨config, lines, rfl⟩ := hr
  refine ⟨config, ?_⟩
  -- One line after the other keeps the memory tidy.
  suffices hrun : ∀ s : Session, s.memory.Tidy config → (s.runAll lines).memory.Tidy config from
    hrun _ (.new config)
  induction lines with
  | nil => exact fun s ht => ht
  | cons line lines ih =>
      intro s ht
      refine ih (s.run line).1 ?_
      cases hp : plan line.toList s.memory with
      | error e =>
          rw [run_of_plan_error s line hp]
          exact ht
      | ok op =>
          rw [memory_of_plan s line hp]
          exact ht.after op fun name hd => isIdentifier_of_named (named_of_plan hp) hd

/-- The slots of the innermost frame are found by their names. -/
theorem exists_frame_of_mem_current {x : Slot} (hs : m.stack.WellFormed)
    (hx : x ∈ m.stack.current.slots) :
    ∃ f, m.stack.frame? m.stack.current.id = some f ∧ f.slot? x.name = some x :=
  ⟨_, hs.frame?_current, Frame.slot?_of_mem (hs.names _ m.stack.current_mem) hx⟩

end Session

open Session

/-- **Self-assignment succeeds and changes nothing.**  In every session, for every variable of the
innermost frame whose name is not the keyword of a primitive type, assigning the variable to itself
is carried out and told as such, and the whole memory is as it was. -/
theorem self_assignment_changes_nothing {s : Session} (hr : s.Reachable) {x : Slot}
    (hx : x ∈ s.memory.stack.current.slots) (hp : Primitive.ofName? x.name = none) :
    (s.run (assigning x.name x.name)).2 = ⟨true, x.name ++ " = " ++ x.name⟩ ∧
      (s.run (assigning x.name x.name)).1.memory = s.memory := by
  obtain ⟨config, ht⟩ := hr.tidy
  obtain ⟨f, hf, hslot⟩ := exists_frame_of_mem_current ht.structured.stack hx
  have hmem : x ∈ s.memory.stack.slots := Stack.mem_slots_of_slot? hf hslot
  have hn := ht.named x hmem
  have hplan : plan (assigning x.name x.name).toList s.memory =
      .ok (.assign s.memory.stack.current.id x.name x.name) :=
    (plan_assigning_eq_ok_iff hn hp (lexemes?_eq_some_iff.1 hn)).2
      ⟨x, Memory.lookup_ok hf hslot, .variable x.name⟩
  have hrun := Memory.assign_self ht.structured.stack hf hslot (ht.settled x hmem)
  have htell : tell (.assign s.memory.stack.current.id x.name x.name) s.memory =
      .ok (.assigned x.name x.name []) s.memory := Memory.map_ok _ hrun
  have hexec : execute (assigning x.name x.name).toList s.memory =
      .ok (.assigned x.name x.name []) s.memory := by
    rw [execute_of_plan_ok hplan, onMemory, htell]
  have hmessage : (Report.assigned x.name x.name []).message = x.name ++ " = " ++ x.name :=
    String.append_empty
  simp only [Session.run, hexec, hmessage, and_self]

/-- In an inner frame, a character that was widened to a number, and a shared object. -/
theorem self_assignment_changes_nothing_widened :
    let s := (Session.new {}).runAll
      ["enter f();", "char c = 'x';", "double d = c;", "Cat a = (age=3);", "Cat b = a;"]
    ((s.run "d = d;").2 = ⟨true, "d = d"⟩ ∧ (s.run "d = d;").1.memory = s.memory) ∧
      (s.run "b = b;").2 = ⟨true, "b = b"⟩ ∧ (s.run "b = b;").1.memory = s.memory := by
  intro s
  have hr : s.Reachable := ⟨{}, _, rfl⟩
  constructor
  · exact self_assignment_changes_nothing
      (x := ⟨.nth 2, "d", .primitive .double, .float (.ofNat 120)⟩) hr (by decide +kernel) rfl
  · exact self_assignment_changes_nothing
      (x := ⟨.nth 5, "b", .object "Cat", .objectRef (.nth 3)⟩) hr (by decide +kernel) rfl

/-- A variable named like a primitive type is not assigned to itself: the line counts as a
declaration that misses its name. -/
theorem self_assignment_refused :
    ¬∀ s : Session, s.Reachable → ∀ x ∈ s.memory.stack.current.slots,
      (s.run (assigning x.name x.name)).2 = ⟨true, x.name ++ " = " ++ x.name⟩ ∧
        (s.run (assigning x.name x.name)).1.memory = s.memory := by
  intro h
  have hint := h ((Session.new {}).runAll ["String int = \"a\";"]) ⟨{}, _, rfl⟩
    ⟨.nth 1, "int", .primitive .string, .text "a"⟩ (by decide +kernel)
  have hok : (((Session.new {}).runAll ["String int = \"a\";"]).run "int = int;").2.ok = false := by
    decide +kernel
  rw [show "int = int;" = assigning "int" "int" from rfl, hint.1] at hok
  cases hok

end StackHeap
