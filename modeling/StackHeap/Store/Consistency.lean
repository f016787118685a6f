import StackHeap.Store.Memory

/-! # Consistency of the memory

A recount of all holders.  The memory is consistent if every slot of a reference type holds a
reference or null and every other slot does not, every address held is that of a live entry, and
the count of every live entry is positive and the number of its holders.

The recount goes through the slots, frame by frame, and then through the live entries, and keeps a
*tally* of the addresses it has met.  It ends at a slot with a value of the wrong kind.  `fault?`
reports the first thing wrong: a slot, then an address that dangles, then a count.

The order of the recount does not show: the tally has the number of times that an address stands in
the list of all holders (`tally_eq`), so the verdict is one on that list (`fault?_eq_none_iff`). -/

namespace StackHeap.Store

/-- The addresses met so far, the first one first, and how often each was met. -/
abbrev Tally := List (Address × Nat)

namespace Tally

/-- The number of times that an address was met. -/
def count (t : Tally) (a : Address) : Nat := (t.lookup a).getD 0

/-- The tally after meeting an address once more. -/
def add (t : Tally) (a : Address) : Tally :=
  match t with
  | [] => [(a, 1)]
  | (b, n) :: t => if a = b then (b, n + 1) :: t else (b, n) :: add t a

@[simp] theorem count_nil (a : Address) : count [] a = 0 := rfl

theorem count_cons (b : Address) (n : Nat) (t : Tally) (a : Address) :
    count ((b, n) :: t) a = if a = b then n else t.count a := by
  rw [count, List.lookup_cons]
  split
  · next h => rw [if_pos (by simpa using h)]; rfl
  · next h => rw [if_neg (by simpa using h)]; rfl

theorem count_add (t : Tally) (a b : Address) :
    (t.add a).count b = t.count b + if a == b then 1 else 0 := by
  induction t with
  | nil =>
    have hsymm : (b = a) ↔ (a == b) = true := by rw [beq_iff_eq, eq_comm]
    rw [add, count_cons, count_nil, Nat.zero_add]
    simp only [hsymm]
  | cons p t ih =>
    obtain ⟨c, n⟩ := p
    rw [add]
    split
    · next hac =>
      subst hac
      rw [count_cons, count_cons]
      split
      · next hba => rw [if_pos (by simpa using hba.symm)]
      · next hba => rw [if_neg (by simpa using Ne.symm hba), Nat.add_zero]
    · next hac =>
      rw [count_cons, count_cons, ih]
      split
      · next hbc =>
        have hab : a ≠ b := fun h => hac (h.trans hbc)
        rw [if_neg (by simpa using hab), Nat.add_zero]
      · rfl

theorem keys_add (t : Tally) (a b : Address) :
    b ∈ (t.add a).map Prod.fst ↔ b ∈ t.map Prod.fst ∨ b = a := by
  induction t with
  | nil => simp [add]
  | cons p t ih =>
    obtain ⟨c, n⟩ := p
    rw [add]
    split
    · next hac =>
      subst hac
      rw [List.map_cons, List.map_cons, List.mem_cons]
      exact ⟨.inl, fun h => h.elim id .inl⟩
    · rw [List.map_cons, List.map_cons, List.mem_cons, List.mem_cons, ih, or_assoc]

/-- Meeting addresses in turn counts each as often as it stands among them. -/
theorem count_foldl_add (as : List Address) (t : Tally) (b : Address) :
    (as.foldl add t).count b = t.count b + as.count b := by
  induction as generalizing t with
  | nil => rfl
  | cons a as ih =>
    rw [List.foldl_cons, ih, count_add, List.count_cons, Nat.add_assoc, Nat.add_comm (as.count b)]

theorem keys_foldl_add (as : List Address) (t : Tally) (b : Address) :
    b ∈ (as.foldl add t).map Prod.fst ↔ b ∈ t.map Prod.fst ∨ b ∈ as := by
  induction as generalizing t with
  | nil => simp
  | cons a as ih => rw [List.foldl_cons, ih, keys_add, List.mem_cons, or_assoc]

end Tally

namespace Memory

/-! ### The recount -/

/-- Whether a slot holds a value of the other kind than its type. -/
def misfits (s : Slot) : Bool := s.type.isReference != s.value.isReference

/-- Meets the address that a slot holds, unless the slot holds a value of the other kind. -/
def tallySlot (t : Tally) (s : Slot) : Except Fault Tally :=
  if misfits s then .error (.misfit s.name s.type s.value)
  else match s.value.referent? with
    | some a => .ok (t.add a)
    | none => .ok t

/-- Meets the addresses that the slots of a frame hold. -/
def tallyFrame (t : Tally) (f : Frame) : Except Fault Tally := f.slots.foldlM tallySlot t

/-- Meets the addresses that an entry holds. -/
def tallyEntry (t : Tally) (e : Entry) : Tally := e.contents.references.foldl .add t

/-- The tally of all addresses held by slots and by live entries. -/
def tally (m : Memory) : Except Fault Tally := do
  let t ← m.stack.frames.foldlM tallyFrame []
  return m.heap.entries.foldl tallyEntry t

/-- The first thing that is wrong with the memory. -/
def fault? (m : Memory) : Option Fault :=
  match m.tally with
  | .error fault => some fault
  | .ok t =>
    match t.find? fun p => !m.heap.contains p.1 with
    | some p => some (.dangling p.1)
    | none =>
      (m.heap.entries.find? fun e => e.refs = 0 || e.refs != t.count e.address).map
        fun e => .miscounted e.address e.refs (t.count e.address)

/-! ### What is recounted -/

/-- The addresses held by slots and by live entries, once for each holder. -/
def holders (m : Memory) : List Address :=
  m.stack.frames.flatMap Frame.references ++ m.heap.entries.flatMap (·.contents.references)

theorem tallySlots_eq (ss : List Slot) (t : Tally) :
    ss.foldlM tallySlot t = match ss.find? misfits with
      | some s => .error (.misfit s.name s.type s.value)
      | none => .ok ((ss.filterMap (·.value.referent?)).foldl .add t) := by
  induction ss generalizing t with
  | nil => rfl
  | cons s ss ih =>
    cases hs : misfits s with
    | true =>
      rw [List.find?_cons_of_pos hs, List.foldlM_cons, tallySlot, if_pos hs]
      rfl
    | false =>
      rw [List.find?_cons_of_neg (by simp [hs]), List.foldlM_cons, tallySlot, if_neg (by simp [hs])]
      cases hr : s.value.referent? with
      | none =>
        simp only [List.filterMap_cons, hr]
        exact ih t
      | some a =>
        simp only [List.filterMap_cons, hr]
        exact ih (t.add a)

/-- Frame by frame, the recount goes through all slots. -/
theorem tallyFrames_eq (fs : List Frame) (t : Tally) :
    fs.foldlM tallyFrame t = (fs.flatMap (·.slots)).foldlM tallySlot t := by
  induction fs generalizing t with
  | nil => rfl
  | cons f fs ih =>
    rw [List.foldlM_cons, List.flatMap_cons, List.foldlM_append]
    exact bind_congr fun t' => ih t'

theorem tallyEntries_eq (es : List Entry) (t : Tally) :
    es.foldl tallyEntry t = (es.flatMap (·.contents.references)).foldl .add t := by
  induction es generalizing t with
  | nil => rfl
  | cons e es ih => rw [List.foldl_cons, ih, List.flatMap_cons, List.foldl_append]; rfl

/-- **The tally is one of all holders**, if no slot is of the other kind than its value. -/
theorem tally_eq (m : Memory) :
    m.tally = match m.stack.slots.find? misfits with
      | some s => .error (.misfit s.name s.type s.value)
      | none => .ok (m.holders.foldl .add []) := by
  have hrefs : m.stack.slots.filterMap (·.value.referent?) =
      m.stack.frames.flatMap Frame.references := List.filterMap_flatMap
  rw [tally, tallyFrames_eq, tallySlots_eq, ← Stack.slots, hrefs]
  split
  · rfl
  · show Except.ok _ = _
    rw [tallyEntries_eq, holders, List.foldl_append]

theorem count_tally (m : Memory) (a : Address) :
    (m.holders.foldl Tally.add []).count a = m.holders.count a := by
  rw [Tally.count_foldl_add, Tally.count_nil, Nat.zero_add]

theorem mem_keys_tally (m : Memory) (a : Address) :
    a ∈ (m.holders.foldl Tally.add []).map Prod.fst ↔ a ∈ m.holders := by
  simp [Tally.keys_foldl_add]

/-- **The recount finds no fault** exactly if every slot is of the kind of its value, every address
held is that of a live entry, and every count is positive and the number of holders. -/
theorem fault?_eq_none_iff (m : Memory) :
    m.fault? = none ↔ (∀ s ∈ m.stack.slots, misfits s = false) ∧
      (∀ a ∈ m.holders, m.heap.contains a = true) ∧
      ∀ e ∈ m.heap.entries, e.refs ≠ 0 ∧ e.refs = m.holders.count e.address := by
  rw [fault?, tally_eq]
  cases hfind : m.stack.slots.find? misfits with
  | some s =>
    have hs := List.find?_some hfind
    have hmem := List.mem_of_find?_eq_some hfind
    refine iff_of_false (by simp) fun h => ?_
    rw [h.1 s hmem] at hs
    cases hs
  | none =>
    have hfit : ∀ s ∈ m.stack.slots, misfits s = false := by simpa using List.find?_eq_none.1 hfind
    rw [and_iff_right hfit]
    dsimp only
    simp only [← m.mem_keys_tally, count_tally]
    cases hkey : (m.holders.foldl Tally.add []).find? fun p => !m.heap.contains p.1 with
    | some p =>
      have hp := List.find?_some hkey
      have hmem := List.mem_map_of_mem (f := Prod.fst) (List.mem_of_find?_eq_some hkey)
      refine iff_of_false (by simp) fun h => ?_
      rw [h.1 p.1 hmem] at hp
      cases hp
    | none =>
      have hlive : ∀ a ∈ (m.holders.foldl Tally.add []).map Prod.fst, m.heap.contains a = true := by
        intro a ha
        obtain ⟨p, hp, rfl⟩ := List.mem_map.1 ha
        simpa using List.find?_eq_none.1 hkey p hp
      rw [and_iff_right hlive]
      simp

end Memory

end StackHeap.Store
