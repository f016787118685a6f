import StackHeap.Proofs.Session.Plan
import StackHeap.Proofs.Store.Exact

/-! # What holds of every session

The memory of a session is that of a run of operations, so whatever runs keep holds after any lines
under any configuration, as long as at most `2 ^ 53` addresses were handed out.

* Reference counts are exact, nothing leaks, and no operation reports a broken memory
  (`reference_counts_exact`).
* What is rejected changes nothing (`rejection_is_atomic`).
* The store is well typed (`store_well_typed`). -/

namespace StackHeap

open Number Store Typing

namespace Session

theorem used_le_run (s : Session) (line : String) :
    s.memory.addresses.used ≤ (s.run line).1.memory.addresses.used := by
  rcases memory_run s line with he | ⟨op, -, he⟩
  · exact Nat.le_of_eq (congrArg (·.addresses.used) he).symm
  · rw [he]
    exact op.used_le_after s.memory

theorem used_le_runAll (s : Session) (lines : List String) :
    s.memory.addresses.used ≤ (s.runAll lines).memory.addresses.used := by
  induction lines generalizing s with
  | nil => exact Nat.le_refl _
  | cons line lines ih => exact Nat.le_trans (s.used_le_run line) (ih _)

/-! ### Sessions that can be reached -/

/-- A session after some lines under some configuration. -/
def Reachable (s : Session) : Prop :=
  ∃ (config : Config) (lines : List String), s = (Session.new config).runAll lines

theorem runAll_append (s : Session) (lines more : List String) :
    s.runAll (lines ++ more) = (s.runAll lines).runAll more := List.foldl_append

namespace Reachable

variable {s : Session}

theorem runAll (hr : s.Reachable) (more : List String) : (s.runAll more).Reachable := by
  obtain ⟨config, lines, rfl⟩ := hr
  exact ⟨config, lines ++ more, (runAll_append _ lines more).symm⟩

theorem run (hr : s.Reachable) (line : String) : (s.run line).1.Reachable := hr.runAll [line]

/-- The memory of a session is sound and well typed. -/
theorem sound_and_typed (hr : s.Reachable) (hu : s.memory.addresses.used ≤ pow2 53) :
    s.memory.Sound [] ∧ s.memory.Typed := by
  obtain ⟨config, lines, rfl⟩ := hr
  obtain ⟨ops, hw, hm⟩ := exists_operations (Session.new config) lines
  rw [hm] at hu ⊢
  exact Memory.Sound.runAll_induction (P := Memory.Typed) (fun op h => h.addressFree)
    (fun hs ht hop hstep => hstep.typed hs ht hop) (.new config) (.new config) hw hu

theorem sound (hr : s.Reachable) (hu : s.memory.addresses.used ≤ pow2 53) : s.memory.Sound [] :=
  (hr.sound_and_typed hu).1

end Reachable

/-- The outcome of a line depends on the memory only. -/
theorem outcome_congr {s t : Session} (h : s.memory = t.memory) (line : String) :
    (s.run line).2 = (t.run line).2 := by
  simp only [run, h]

/-- A rejected line changes the transcript only. -/
theorem run_of_rejected {s : Session} {line : String} (hs : s.memory.Sound [])
    (hu : (s.run line).1.memory.addresses.used ≤ pow2 53) (hok : (s.run line).2.ok = false) :
    (s.run line).1 = { s with transcript := s.transcript ++ [⟨trimmed line, (s.run line).2⟩] } := by
  cases hp : plan line.toList s.memory with
  | error e => rw [run_of_plan_error s line hp]
  | ok op =>
      cases he : op.error? s.memory with
      | none =>
          obtain ⟨report, hr⟩ := run_of_ok s line hp he
          rw [hr] at hok
          cases hok
      | some e =>
          rw [run_of_error s line hp he] at hu ⊢
          have hfree := (proper_of_plan hp).wellTyped.addressFree
          rcases op.after_cases hs hfree hu with ⟨e', -, -, hsame⟩ | ⟨answer, hnone, -⟩
          · rw [hsame]
          · rw [hnone] at he
            cases he

end Session

/-! ### Reference counts -/

/-- **Reference counts are exact over whole runs.**  After every operation of a run the counts are
right and nothing leaks, and no operation reports a broken memory.  Nor does a recount after any
lines. -/
theorem reference_counts_exact (config : Config) :
    (∀ ops : List Operation, (∀ op ∈ ops, op.AddressFree) →
      ((Memory.new config).runAll ops).addresses.used ≤ pow2 53 →
      (∀ before after, ops = before ++ after → ((Memory.new config).runAll before).Exact) ∧
      ∀ before op after, ops = before ++ op :: after →
        ∀ fault, op.error? ((Memory.new config).runAll before) ≠ some (.broken fault)) ∧
    ∀ s : Session, s.Reachable → s.memory.addresses.used ≤ pow2 53 → s.memory.fault? = none := by
  refine ⟨fun ops hfree hu => ⟨?_, ?_⟩, fun s hr hu => (hr.sound hu).fault?_eq_none⟩
  · rintro before after rfl
    rw [Memory.runAll_append] at hu
    refine ((Memory.Sound.new config).runAll ?_ ?_).exact
    · exact fun op hop => hfree op (List.mem_append_left _ hop)
    · exact Nat.le_trans (Memory.used_le_runAll _ after) hu
  · rintro before op after rfl fault
    rw [Memory.runAll_append] at hu
    have hafter := Nat.le_trans (Memory.used_le_runAll (op.after _) after) hu
    have hs := (Memory.Sound.new config).runAll
      (fun op' hop => hfree op' (List.mem_append_left _ hop))
      (Nat.le_trans (op.used_le_after _) hafter)
    have hop := hfree op (List.mem_append_right _ List.mem_cons_self)
    rcases op.after_cases hs hop hafter with ⟨e, he, hr, -⟩ | ⟨answer, he, -⟩
    · rw [he]
      exact fun h => hr fault (Option.some.inj h)
    · rw [he]
      exact fun h => by cases h

/-- An object that two variables and an array share, one of the variables then set to null. -/
theorem reference_counts_exact_shared :
    ((Memory.new {}).runAll [
      .declareObject 0 "a" "Cat" [⟨"age", .int, .int 3⟩],
      .declareCopy 0 "b" (.object "Cat") "a",
      .declareArray 0 "c" (.object "Cat") [.variable "a", .variable "b"],
      .assignNull 0 "a"]).Exact ∧
    ((Session.new {}).runAll ["Cat a = (age=3);", "Cat b = a;", "Cat[] c = {a, b};",
      "a = null;"]).memory.fault? = none :=
  ⟨((reference_counts_exact {}).1 _ (by decide) (by decide +kernel)).1 _ []
      (List.append_nil _).symm,
    (reference_counts_exact {}).2 _ ⟨{}, _, rfl⟩ (by decide +kernel)⟩

/-! ### Rejection -/

/-- **What is rejected changes nothing.**  A rejected line leaves an entry in the transcript and is
rejected again in the same words; a failed operation leaves nothing. -/
theorem rejection_is_atomic :
    (∀ (s : Session) (line : String), s.Reachable →
      (s.run line).1.memory.addresses.used ≤ pow2 53 → (s.run line).2.ok = false →
      (s.run line).1 = { s with transcript := s.transcript ++ [⟨trimmed line, (s.run line).2⟩] } ∧
      ((s.run line).1.run line).2 = (s.run line).2) ∧
    ∀ (config : Config) (ops : List Operation) (op : Operation),
      (∀ o ∈ op :: ops, o.AddressFree) →
      let m := (Memory.new config).runAll ops
      (op.after m).addresses.used ≤ pow2 53 → (op.error? m).isSome = true → op.after m = m := by
  constructor
  · intro s line hr hu hok
    have hs := hr.sound (Nat.le_trans (s.used_le_run line) hu)
    have hrun := Session.run_of_rejected hs hu hok
    exact ⟨hrun, Session.outcome_congr (by rw [hrun]) line⟩
  · intro config ops op hfree m hu he
    have hs := (Memory.Sound.new config).runAll (fun o ho => hfree o (List.mem_cons_of_mem _ ho))
      (Nat.le_trans (op.used_le_after _) hu)
    rcases op.after_cases hs (hfree op List.mem_cons_self) hu with ⟨-, -, -, hsame⟩ | ⟨-, hnone, -⟩
    · exact hsame
    · rw [hnone] at he
      cases he

/-- A variable declared twice, as a line and as an operation. -/
theorem rejection_is_atomic_redeclared :
    ((((Session.new {}).runAll ["int x = 1;"]).run "int x = 2;").1.run "int x = 2;").2 =
      (((Session.new {}).runAll ["int x = 1;"]).run "int x = 2;").2 ∧
    (Operation.declareScalar 0 "x" .int (.int 2)).after
        ((Memory.new {}).runAll [.declareScalar 0 "x" .int (.int 1)]) =
      (Memory.new {}).runAll [.declareScalar 0 "x" .int (.int 1)] :=
  ⟨(rejection_is_atomic.1 _ "int x = 2;" ⟨{}, ["int x = 1;"], rfl⟩ (by decide +kernel)
      (by decide +kernel)).2,
    rejection_is_atomic.2 {} _ _ (by decide) (by decide +kernel) (by decide +kernel)⟩

/-! ### Types -/

/-- Every slot, field and element holds what its type says. -/
structure Store.Memory.WellTyped (m : Memory) : Prop where
  slots : ∀ x ∈ m.stack.slots, m.heap.Conforms x.type x.value
  objects : ∀ e ∈ m.heap.entries, ∀ fields, e.contents = .object fields →
    (∃ category, e.type = .object category) ∧ ProperFields fields
  arrays : ∀ e ∈ m.heap.entries, ∀ values, e.contents = .array values →
    ∃ element, e.type = .array element ∧ element.IsBasic ∧ values ≠ [] ∧
      ∀ v ∈ values, m.heap.Conforms element v

/-- **The store is well typed** after any lines. -/
theorem store_well_typed {s : Session} (hr : s.Reachable)
    (hu : s.memory.addresses.used ≤ pow2 53) : s.memory.WellTyped := by
  obtain ⟨hs, ht⟩ := hr.sound_and_typed hu
  refine ⟨fun x hx => ?_, fun e he fields hc => ?_, fun e he values hc => ?_⟩
  · refine ht.conforms hs (ht.flat x hx) (ht.slots x hx) fun a ha => ?_
    have hmem : a ∈ s.memory.stack.references :=
      List.mem_filterMap.2 ⟨x, hx, Option.mem_toList.1 ha⟩
    exact hs.isSome_get? (List.mem_append_left _ hmem)
  · have hentry := ht.entries e he
    rw [hc] at hentry
    generalize e.type = type at hentry ⊢
    cases hentry with
    | object hf => exact ⟨⟨_, rfl⟩, hf⟩
  · have hentry := ht.entries e he
    rw [hc] at hentry
    generalize e.type = type at hentry ⊢
    cases hentry with
    | array hb hne hv => exact ⟨_, rfl, hb, hne, ht.conforms_element hs he hc hb hv⟩

/-- A character widened to a floating type, and an array with a null element. -/
theorem store_well_typed_widened :
    ((Session.new {}).runAll ["char c = 'x';", "double d = c;", "Cat a = (age=3);",
      "Cat[] k = {a, null};"]).memory.WellTyped :=
  store_well_typed ⟨{}, _, rfl⟩ (by decide +kernel)

end StackHeap
