import StackHeap.Proofs.Session.Invariants
import StackHeap.Proofs.Store.Locality

/-! # Commands touch what they name

A line names the variable that it assigns to, if it is an assignment (`target?`).  In the innermost
frame it changes the value of that variable or declares one, and no other slot, frame or entry
changes.

Over lines that do not assign to a variable of a frame, its slot stays as it is for as long as the
frame does, and an entry keeps its contents for as long as it lives.  So what is copied from a
variable does not change with it. -/

namespace StackHeap

open Command Number Store Typing

namespace Session

/-! ### The variable that a line names -/

/-- The variable that a line assigns to. -/
def target? (line : String) : Option String :=
  match classify line.toList with
  | .ok (.assignment target _) => some target
  | _ => none

/-- One of some lines assigns to a variable of the frame of a number. -/
def assigns (s : Session) (id : Nat) (name : String) : List String → Bool
  | [] => false
  | line :: lines => (decide (s.memory.stack.current.id = id) && target? line == some name) ||
      (s.run line).1.assigns id name lines

theorem target?_initialization (id : Nat) (name : String) (i : Initializer) :
    (initialization id name i).target? = none := by
  cases i <;> rfl

theorem target?_assignment {id : Nat} {target : String} {type : DeclaredType} {side : RightSide}
    {op : Operation} (h : assignment id target type side = .ok op) : op.target? = some target := by
  cases side with
  | «variable» source =>
      cases h
      rfl
  | null =>
      cases h
      rfl
  | construct category attributes =>
      simp only [assignment] at h
      split at h
      · cases h
      · obtain ⟨fields, -, rfl⟩ := map_eq_ok.1 h
        rfl
  | literal text =>
      simp only [assignment] at h
      split at h
      · cases h
      · obtain ⟨v, -, rfl⟩ := map_eq_ok.1 h
        rfl

/-- The operation planned assigns to the variable that the line names. -/
theorem target?_of_plan {line : String} {m : Memory} {op : Operation}
    (h : plan line.toList m = .ok op) : op.target? = target? line := by
  simp only [plan, bind_eq_ok, mapError_eq_ok] at h
  obtain ⟨kind, hkind, h⟩ := h
  unfold target?
  rw [hkind]
  cases kind with
  | enter name =>
      cases h
      rfl
  | leave =>
      cases h
      rfl
  | assignment target value =>
      simp only [bind_eq_ok, mapError_eq_ok] at h
      obtain ⟨t, -, side, -, h⟩ := h
      exact target?_assignment h
  | declaration =>
      simp only [bind_eq_ok, mapError_eq_ok, return_eq_ok] at h
      obtain ⟨d, -, rfl⟩ := h
      exact target?_initialization _ _ _

/-! ### One line -/

section Lines

variable {s : Session} {f f' : Frame}

/-- **A line touches the variable that it names.** -/
theorem touched_run (hr : s.Reachable) (line : String)
    (hu : (s.run line).1.memory.addresses.used ≤ pow2 53) :
    s.memory.Touched (target? line) (s.run line).1.memory := by
  have hs := hr.sound (Nat.le_trans (s.used_le_run line) hu)
  cases hp : plan line.toList s.memory with
  | error e =>
      rw [run_of_plan_error s line hp]
      exact .refl hs _
  | ok op =>
      have hproper := proper_of_plan hp
      have hfree := hproper.wellTyped.addressFree
      rw [memory_of_plan s line hp] at hu ⊢
      rcases op.after_cases hs hfree hu with ⟨-, -, -, hsame⟩ | ⟨answer, -, hstep⟩
      · rw [hsame]
        exact .refl hs _
      · rw [← target?_of_plan hp]
        exact hstep.touched hs hfree hproper.frame

/-! ### Many lines -/

/-- Numbers of frames that were left are not used again. -/
theorem later_runAll (s : Session) (lines : List String) :
    s.memory.Later (s.runAll lines).memory := by
  obtain ⟨ops, -, hm⟩ := exists_operations s lines
  rw [hm]
  exact .runAll _ ops

/-- A frame that is there in the end is there after the first line. -/
theorem exists_frame_run {line : String} {lines : List String} (hs : s.memory.stack.WellFormed)
    (hf : f ∈ s.memory.stack.frames) (hf' : f' ∈ (s.runAll (line :: lines)).memory.stack.frames)
    (hid : f'.id = f.id) : ∃ f₁ ∈ (s.run line).1.memory.stack.frames, f₁.id = f.id := by
  by_contra hnone
  have hgone : f.id ∉ (s.run line).1.memory.stack.ids := by
    intro hmem
    obtain ⟨f₁, hf₁, hid₁⟩ := List.mem_map.1 hmem
    exact hnone ⟨f₁, hf₁, hid₁⟩
  have hlt : f.id < (s.run line).1.memory.stack.nextId :=
    Nat.lt_of_lt_of_le (hs.below f hf) (later_runAll s [line]).nextId_le
  apply (later_runAll (s.run line).1 lines).retired f.id hlt hgone
  rw [← hid]
  exact List.mem_map_of_mem hf'

/-- **Slots stay in place, and keep their value until a line assigns to them.** -/
theorem slots_runAll {lines : List String} (hr : s.Reachable)
    (hu : (s.runAll lines).memory.addresses.used ≤ pow2 53) (hf : f ∈ s.memory.stack.frames)
    (hf' : f' ∈ (s.runAll lines).memory.stack.frames) (hid : f'.id = f.id) :
    f.slots.map Slot.place <+: f'.slots.map Slot.place ∧
      ∀ x ∈ f.slots, s.assigns f.id x.name lines = false → x ∈ f'.slots := by
  have hs := (hr.sound (Nat.le_trans (s.used_le_runAll lines) hu)).stack
  induction lines generalizing s f with
  | nil =>
      obtain rfl := hs.eq_of_id hf hf' hid
      exact ⟨List.prefix_rfl, fun x hx _ => hx⟩
  | cons line lines ih =>
      have hrest := used_le_runAll (s.run line).1 lines
      have ht := touched_run hr line (Nat.le_trans hrest hu)
      obtain ⟨f₁, hf₁, hid₁⟩ := exists_frame_run hs hf hf' hid
      have hs₁ := ((hr.run line).sound (Nat.le_trans hrest hu)).stack
      obtain ⟨hplaces, hslots⟩ := ih (hr.run line) hu hf₁ hf' (hid.trans hid₁.symm) hs₁
      refine ⟨(ht.stack.places hf hf₁ hid₁).trans hplaces, ?_⟩
      intro x hx hassigns
      rw [assigns, Bool.or_eq_false_iff] at hassigns
      obtain ⟨hline, hlines⟩ := hassigns
      rw [← hid₁] at hlines
      apply hslots x ?_ hlines
      apply ht.stack.mem_slots hf hf₁ hid₁ hx
      rintro ⟨hcurrent, htarget⟩
      rw [hcurrent, htarget] at hline
      simp at hline

/-- **Entries keep all but their counts for as long as they live.** -/
theorem entries_runAll {lines : List String} {e e' : Entry} (hr : s.Reachable)
    (hu : (s.runAll lines).memory.addresses.used ≤ pow2 53) (he : e ∈ s.memory.heap.entries)
    (he' : e' ∈ (s.runAll lines).memory.heap.entries) (ha : e'.address = e.address) :
    e'.uncounted = e.uncounted := by
  have hused := Nat.le_trans (s.used_le_runAll lines) hu
  obtain ⟨config, before, rfl⟩ := hr
  obtain ⟨ops, -, hm⟩ := exists_operations (Session.new config) before
  obtain ⟨more, -, hm'⟩ := exists_operations ((Session.new config).runAll before) lines
  rw [hm'] at hu he'
  rw [hm] at hused hu he he'
  have hstart := Memory.Structured.new config
  have hst := hstart.runAll ops
  have hsupplied := (Memory.Supplied.new config).runAll hstart ops hused
  exact hsupplied.uncounted_eq hst.distinct (hsupplied.moves_runAll hst more hu) hu he he' ha

end Lines

end Session

/-- **Commands touch what they name.**  A line changes the value of the variable that it names in
the innermost frame, or declares one there, and adds an entry at most; all else stays as it is.
Over any lines the slots of a frame stay in place, and a slot keeps its value unless one of the
lines assigns to it; an entry keeps all but its count for as long as it lives. -/
theorem commands_touch_what_they_name :
    (∀ (s : Session) (line : String), s.Reachable →
      (s.run line).1.memory.addresses.used ≤ pow2 53 →
      s.memory.Touched (Session.target? line) (s.run line).1.memory) ∧
    ∀ (s : Session) (lines : List String), s.Reachable →
      (s.runAll lines).memory.addresses.used ≤ pow2 53 →
      (∀ f ∈ s.memory.stack.frames, ∀ f' ∈ (s.runAll lines).memory.stack.frames, f'.id = f.id →
        f.slots.map Slot.place <+: f'.slots.map Slot.place ∧
        ∀ x ∈ f.slots, s.assigns f.id x.name lines = false → x ∈ f'.slots) ∧
      ∀ e ∈ s.memory.heap.entries, ∀ e' ∈ (s.runAll lines).memory.heap.entries,
        e'.address = e.address → e'.uncounted = e.uncounted := by
  constructor
  · intro s line hr hu
    exact Session.touched_run hr line hu
  · intro s lines hr hu
    constructor
    · intro f hf f' hf' hid
      exact Session.slots_runAll hr hu hf hf' hid
    · intro e he e' he' ha
      exact Session.entries_runAll hr hu he he' ha

/-- A copy of a variable stays as it is when the variable is assigned to, and when a variable of its
own name is in an inner scope. -/
theorem commands_touch_what_they_name_copied :
    let s := (Session.new {}).runAll ["Cat a = (age=3);", "Cat b = a;"]
    let t := s.runAll ["a = new Cat(age=4);", "enter f();", "int b = 7;", "b = 8;", "leave;"]
    s.memory.Touched (some "a") (s.run "a = new Cat(age=4);").1.memory ∧
      ∀ x ∈ s.memory.stack.root.slots, x.name = "b" → x ∈ t.memory.stack.root.slots := by
  intro s t
  constructor
  · have htarget : Session.target? "a = new Cat(age=4);" = some "a" := by decide +kernel
    rw [← htarget]
    exact commands_touch_what_they_name.1 s _ ⟨{}, _, rfl⟩ (by decide +kernel)
  · intro x hx hname
    have hall := (commands_touch_what_they_name.2 s
      ["a = new Cat(age=4);", "enter f();", "int b = 7;", "b = 8;", "leave;"] ⟨{}, _, rfl⟩
      (by decide +kernel)).1
    apply (hall s.memory.stack.root List.mem_cons_self t.memory.stack.root List.mem_cons_self
      (by decide +kernel)).2 x hx
    rw [hname]
    decide +kernel

end StackHeap
