import StackHeap.Proofs.Store.Moves

/-! # The structure of the stack and the heap

What holds of the memory after any operations, whatever they are called with, carried out or not,
under limits of any size.

* **Every state** (`Memory.Structured`).  The root frame is there and has the number 0, the numbers
  of frames grow inwards, the variables of a frame have names of their own, the limits are kept, and
  the entries stand in the order of their sequence numbers.
* **Two states of one run** (`Memory.Later`).  The number of a frame that was left is not used
  again.  Entries that stay live keep their order, whatever is collected between them, and entries
  that are allocated come after them.

Both are a matter of single moves (`Structured.move`, `Later.of_move`). -/

namespace StackHeap.Store

/-! ### Parts that moves leave alone -/

namespace Heap

variable {h h' : Heap}

/-- What does not look at counts is kept in order. -/
theorem Kept.map_sublist {β : Type} (hk : h.Kept h') {g : Entry → β}
    (hg : ∀ e : Entry, g e.uncounted = g e) : (h'.entries.map g).Sublist (h.entries.map g) := by
  have hs := hk.entries.map g
  simp only [List.map_map, Function.comp_def, hg] at hs
  exact hs

end Heap

namespace Stack

variable {s t : Stack} {id : Nat} {f : Frame}

@[simp] theorem depth_update (s : Stack) (id : Nat) (g : Frame → Frame) :
    (s.update id g).depth = s.depth := by
  rw [depth, depth, frames_update, List.length_map]

@[simp] theorem depth_push (s : Stack) (name : String) : (s.push name).depth = s.depth + 1 := by
  simp [depth]

theorem depth_of_pop? (hp : s.pop? = some (f, t)) : s.depth = t.depth + 1 := by
  simp [depth, frames_of_pop? hp]

theorem ids_update {g : Frame → Frame} (hg : ∀ f, (g f).id = f.id) (s : Stack) (id : Nat) :
    (s.update id g).ids = s.ids := by
  rw [ids, ids, frames_update, List.map_map]
  apply List.map_congr_left
  intro f _
  rw [Function.comp_apply]
  split
  · exact hg f
  · rfl

@[simp] theorem ids_push (s : Stack) (name : String) : (s.push name).ids = s.ids ++ [s.nextId] := by
  simp [ids]

theorem ids_of_pop? (hp : s.pop? = some (f, t)) : s.ids = t.ids ++ [f.id] := by
  simp [ids, frames_of_pop? hp]

end Stack

namespace Memory

variable {m m₁ m' : Memory} {as : List Address} {config : Config}

@[simp] theorem ids_declared (m : Memory) (id : Nat) (name : String) (type : DeclaredType)
    (value : Value) : (m.declared id name type value).stack.ids = m.stack.ids :=
  Stack.ids_update (g := (·.push _)) (fun _ => rfl) m.stack id

@[simp] theorem ids_written (m : Memory) (id : Nat) (name : String) (value : Value) :
    (m.written id name value).stack.ids = m.stack.ids :=
  Stack.ids_update (g := (·.write name value)) (fun _ => rfl) m.stack id

/-! ### Every state -/

/-- The stack and the heap are in order. -/
structure Structured (config : Config) (m : Memory) : Prop where
  root : ∃ slots, m.stack.frames.head? = some ⟨0, config.rootFrame, slots⟩
  stack : m.stack.WellFormed
  depth : m.stack.depth ≤ max 1 config.maxFrames
  live : m.heap.entries.length ≤ config.maxHeapEntries
  distinct : m.heap.Distinct
  /-- Entries stand in the order in which they were allocated. -/
  sequences : (m.heap.entries.map Entry.sequence).Pairwise (· < ·)
  below : ∀ e ∈ m.heap.entries, e.sequence < m.heap.nextSequence
  maxFrames : m.maxFrames = config.maxFrames
  limit : m.heap.limit = config.maxHeapEntries

namespace Structured

theorem new (config : Config) : (Memory.new config).Structured config where
  root := ⟨[], rfl⟩
  stack := .new _
  depth := Nat.le_max_left 1 _
  live := Nat.zero_le _
  distinct := List.nodup_nil
  sequences := .nil
  below _ he := absurd he List.not_mem_nil
  maxFrames := rfl
  limit := rfl

/-- A change to the slots of a frame leaves the root in place. -/
theorem root_update {s : Stack} {name : String} {g : Frame → Frame}
    (hr : ∃ slots, s.frames.head? = some ⟨0, name, slots⟩) (id : Nat)
    (hg : ∀ f, ∃ slots, g f = { f with slots := slots }) :
    ∃ slots, (s.update id g).frames.head? = some ⟨0, name, slots⟩ := by
  obtain ⟨slots, hr⟩ := hr
  rw [Stack.frames_update, List.head?_map, hr, Option.map_some]
  split
  · obtain ⟨changed, hc⟩ := hg ⟨0, name, slots⟩
    exact ⟨changed, by rw [hc]⟩
  · exact ⟨slots, rfl⟩

theorem kept {h : Heap} (hs : m.Structured config) (hk : m.heap.Kept h) :
    Structured config { m with heap := h } where
  root := hs.root
  stack := hs.stack
  depth := hs.depth
  live := by
    have hl := (hk.map_sublist (g := Entry.address) fun _ => rfl).length_le
    rw [List.length_map, List.length_map] at hl
    exact Nat.le_trans hl hs.live
  distinct := hs.distinct.sublist (hk.map_sublist fun _ => rfl)
  sequences := hs.sequences.sublist (hk.map_sublist fun _ => rfl)
  below := hk.below hs.below
  maxFrames := hs.maxFrames
  limit := hk.limit.trans hs.limit

theorem allocated {type : DeclaredType} {contents : Contents} (hs : m.Structured config)
    (hr : m.heap.hasRoom 1 = true) (hg : m.heap.get? m.addresses.next = none) :
    (m.allocated type contents).Structured config where
  root := hs.root
  stack := hs.stack
  depth := hs.depth
  live := by
    rw [Heap.hasRoom, decide_eq_true_eq, hs.limit] at hr
    simpa [Memory.allocated, Heap.appended] using hr
  distinct := hs.distinct.appended hg
  sequences := by
    simp only [Memory.allocated, Heap.appended, List.map_append, List.map_singleton]
    rw [List.pairwise_append]
    refine ⟨hs.sequences, List.pairwise_singleton _ _, ?_⟩
    intro i hi j hj
    obtain ⟨e, he, rfl⟩ := List.mem_map.1 hi
    rw [List.mem_singleton.1 hj]
    exact hs.below e he
  below := Heap.below_appended hs.below rfl
  maxFrames := hs.maxFrames
  limit := hs.limit

/-- **A move keeps the structure.** -/
theorem move (hs : m.Structured config) (hm : m.Move as m') : m'.Structured config := by
  cases hm with
  | count hm => exact hs.kept hm.kept
  | allocate hr hg => exact hs.allocated hr hg
  | @declare id name f type value hf hn =>
      refine { hs with root := ?_, stack := ?_, depth := ?_ }
      · exact root_update hs.root id fun _ => ⟨_, rfl⟩
      · exact hs.stack.declare hf hn
      · simpa [declared] using hs.depth
  | @write id name f x value hf hx =>
      refine { hs with root := ?_, stack := ?_, depth := ?_ }
      · exact root_update hs.root id fun _ => ⟨_, rfl⟩
      · exact hs.stack.write hf name value
      · simpa [written] using hs.depth
  | @enter name hd =>
      refine { hs with root := ?_, stack := hs.stack.push name, depth := ?_ }
      · exact hs.root
      · rw [hs.maxFrames] at hd
        show (m.stack.push name).depth ≤ _
        rw [Stack.depth_push]
        omega
  | @leave f t hp =>
      refine { hs with root := ?_, stack := hs.stack.pop hp, depth := ?_ }
      · show ∃ slots, some t.root = _
        rw [Stack.root_of_pop? hp]
        exact hs.root
      · have hd := hs.depth
        rw [Stack.depth_of_pop? hp] at hd
        show t.depth ≤ _
        omega

theorem moves (hs : m.Structured config) (hm : m.Moves as m') : m'.Structured config :=
  hm.induct (fun hs hm => hs.move hm) hs

theorem skip (hs : m.Structured config) : m.skipped.Structured config := { hs with }

/-- So does a run. -/
theorem runAll (hs : m.Structured config) (ops : List Operation) :
    (m.runAll ops).Structured config :=
  Memory.runAll_moves (fun hs hm => hs.move hm) (fun hs => hs.skip) hs ops

/-- Sorted by their sequence numbers the live entries stand in this order, in whatever order they
are found. -/
theorem mergeSort_entries (hs : m.Structured config) {es : List Entry}
    (hp : es.Perm m.heap.entries) :
    es.mergeSort (fun a b => a.sequence ≤ b.sequence) = m.heap.entries := by
  have hperm := (List.mergeSort_perm es fun a b => a.sequence ≤ b.sequence).trans hp
  have hsorted : (es.mergeSort fun a b => a.sequence ≤ b.sequence).Pairwise
      fun a b => decide (a.sequence ≤ b.sequence) = true := by
    apply List.pairwise_mergeSort
    · simpa using fun a b c => Nat.le_trans
    · simpa using fun a b => Nat.le_total _ _
  have horder : m.heap.entries.Pairwise fun a b => decide (a.sequence ≤ b.sequence) = true :=
    (List.pairwise_map.1 hs.sequences).imp fun hlt => decide_eq_true (Nat.le_of_lt hlt)
  have hnodup : (m.heap.entries.map Entry.sequence).Nodup := hs.sequences.imp Nat.ne_of_lt
  refine hperm.eq_of_pairwise ?_ hsorted horder
  intro a b ha hb hab hba
  have heq := Nat.le_antisymm (of_decide_eq_true hab) (of_decide_eq_true hba)
  exact List.inj_on_of_nodup_map hnodup (hperm.subset ha) hb heq

end Structured

/-! ### Two states of one run -/

/-- What a memory tells of those that come after it in a run. -/
structure Later (m m' : Memory) : Prop where
  nextId_le : m.stack.nextId ≤ m'.stack.nextId
  /-- The number of a frame that is gone is not used again. -/
  retired : ∀ id < m.stack.nextId, id ∉ m.stack.ids → id ∉ m'.stack.ids
  nextSequence_le : m.heap.nextSequence ≤ m'.heap.nextSequence
  /-- What is left of the entries comes first and in the same order, and what was allocated since
  follows. -/
  entries : ∃ kept new, m'.heap.entries.map Entry.uncounted = kept ++ new ∧
    kept.Sublist (m.heap.entries.map Entry.uncounted) ∧
    ∀ e ∈ new, m.heap.nextSequence ≤ e.sequence

namespace Later

theorem refl (m : Memory) : m.Later m where
  nextId_le := Nat.le_refl _
  retired _ _ hn := hn
  nextSequence_le := Nat.le_refl _
  entries := ⟨_, [], (List.append_nil _).symm, .refl _, fun _ he => absurd he List.not_mem_nil⟩

theorem trans (h₁ : m.Later m₁) (h₂ : m₁.Later m') : m.Later m' where
  nextId_le := Nat.le_trans h₁.nextId_le h₂.nextId_le
  retired id hid hn :=
    h₂.retired id (Nat.lt_of_lt_of_le hid h₁.nextId_le) (h₁.retired id hid hn)
  nextSequence_le := Nat.le_trans h₁.nextSequence_le h₂.nextSequence_le
  entries := by
    obtain ⟨kept₁, new₁, he₁, hk₁, hn₁⟩ := h₁.entries
    obtain ⟨kept₂, new₂, he₂, hk₂, hn₂⟩ := h₂.entries
    -- What the second state keeps is partly old and partly new to the first one.
    rw [he₁] at hk₂
    obtain ⟨old, since, rfl, hold, hsince⟩ := List.sublist_append_iff.1 hk₂
    refine ⟨old, since ++ new₂, ?_, hold.trans hk₁, ?_⟩
    · rw [he₂, List.append_assoc]
    · intro e he
      rcases List.mem_append.1 he with he | he
      · exact hn₁ e (hsince.subset he)
      · exact Nat.le_trans h₁.nextSequence_le (hn₂ e he)

/-- No entry is new when the heap changes by counts and collections only. -/
theorem of_kept (hid : m.stack.nextId ≤ m'.stack.nextId)
    (hr : ∀ id < m.stack.nextId, id ∉ m.stack.ids → id ∉ m'.stack.ids)
    (hk : m.heap.Kept m'.heap) : m.Later m' where
  nextId_le := hid
  retired := hr
  nextSequence_le := Nat.le_of_eq hk.nextSequence.symm
  entries := ⟨_, [], (List.append_nil _).symm, hk.entries,
    fun _ he => absurd he List.not_mem_nil⟩

theorem of_move (hm : m.Move as m') : m.Later m' := by
  cases hm with
  | count hm => exact of_kept (Nat.le_refl _) (fun _ _ hn => hn) hm.kept
  | allocate hr hg =>
      refine ⟨Nat.le_refl _, fun _ _ hn => hn, Nat.le_succ _, ?_⟩
      refine ⟨_, _, List.map_append, .refl _, ?_⟩
      intro e he
      rw [List.mem_singleton.1 he]
      exact Nat.le_refl _
  | @declare id name f type value hf hn =>
      refine of_kept (Nat.le_refl _) ?_ (.refl _)
      intro i _ hi
      rwa [ids_declared]
  | @write id name f x value hf hx =>
      refine of_kept (Nat.le_refl _) ?_ (.refl _)
      intro i _ hi
      rwa [ids_written]
  | @enter name hd =>
      refine of_kept (Nat.le_succ _) ?_ (.refl _)
      intro i hlt hi hmem
      rw [Stack.ids_push, List.mem_append, List.mem_singleton] at hmem
      rcases hmem with hmem | rfl
      · exact hi hmem
      · exact Nat.lt_irrefl _ hlt
  | @leave f t hp =>
      refine of_kept (Nat.le_of_eq (Stack.nextId_of_pop? hp).symm) ?_ (.refl _)
      intro i _ hi hmem
      apply hi
      rw [Stack.ids_of_pop? hp]
      exact List.mem_append_left _ hmem

theorem skip (m : Memory) : m.Later m.skipped :=
  of_kept (Nat.le_refl _) (fun _ _ hn => hn) (.refl _)

/-- A memory tells of all that come after it in a run. -/
theorem runAll (m : Memory) (ops : List Operation) : m.Later (m.runAll ops) :=
  Memory.runAll_moves (P := m.Later) (fun hl hm => hl.trans (of_move hm))
    (fun hl => hl.trans (skip _)) (refl m) ops

end Later

end Memory

/-! ### Runs -/

/-- **Runs keep the structure.**  After any operations the stack and the heap are in order, and the
live entries found in any order are sorted by their sequence numbers into this one.  As a run goes
on, numbers of frames are not used again and entries keep the order of their allocation. -/
theorem runs_keep_structure (config : Config) :
    (∀ ops : List Operation,
      let m := (Memory.new config).runAll ops
      m.Structured config ∧ ∀ es : List Entry, es.Perm m.heap.entries →
        es.mergeSort (fun a b => a.sequence ≤ b.sequence) = m.heap.entries) ∧
      ∀ ops more : List Operation,
        ((Memory.new config).runAll ops).Later ((Memory.new config).runAll (ops ++ more)) := by
  constructor
  · intro ops m
    have hs : m.Structured config := (Memory.Structured.new config).runAll ops
    exact ⟨hs, fun es hp => hs.mergeSort_entries hp⟩
  · intro ops more
    rw [Memory.runAll_append]
    exact .runAll _ more

end StackHeap.Store
