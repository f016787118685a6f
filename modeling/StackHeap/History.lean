import StackHeap.Snapshot

/-! # The history

The history keeps snapshots for browsing, each with the command it was taken after, within a
budget on the sum of their sizes.  A new snapshot drops the oldest ones until it fits; one that is
larger than the whole budget is kept alone. -/

namespace StackHeap

/-- A snapshot and the command that led to it. -/
structure Recorded where
  command : String
  snapshot : Snapshot
deriving DecidableEq, Repr, Inhabited

/-- Snapshots within a budget. -/
structure History where
  /-- The largest sum of sizes. -/
  budget : Nat
  /-- The snapshots, the oldest first. -/
  records : List Recorded := []
  /-- The sum of the sizes. -/
  usage : Nat := 0
  /-- How many snapshots were dropped. -/
  evicted : Nat := 0
deriving DecidableEq, Repr, Inhabited

namespace History

/-- Drops the oldest of some records until `size` more fits; `usage` is the sum of their sizes.
Returns the rest, the sum of their sizes and how many were dropped. -/
def evict (budget size usage dropped : Nat) : List Recorded → List Recorded × Nat × Nat
  | [] => ([], usage, dropped)
  | r :: rs =>
    if budget < usage + size then evict budget size (usage - r.snapshot.size) (dropped + 1) rs
    else (r :: rs, usage, dropped)

/-- The history with one more snapshot. -/
def push (h : History) (command : String) (s : Snapshot) : History :=
  let (kept, usage, evicted) := evict h.budget s.size h.usage h.evicted h.records
  { h with records := kept ++ [⟨command, s⟩], usage := usage + s.size, evicted := evicted }

/-- The number of snapshots. -/
def length (h : History) : Nat := h.records.length

/-- The snapshot at an index, the oldest first. -/
def get? (h : History) (i : Nat) : Option Recorded := h.records[i]?

/-- The newest snapshot. -/
def latest? (h : History) : Option Recorded := h.records.getLast?

@[simp] theorem latest?_push (h : History) (command : String) (s : Snapshot) :
    (h.push command s).latest? = some ⟨command, s⟩ := by simp [latest?, push]

theorem evict_suffix (budget size usage dropped : Nat) (rs : List Recorded) :
    (evict budget size usage dropped rs).1 <:+ rs := by
  induction rs generalizing usage dropped with
  | nil => exact List.suffix_refl _
  | cons r rs ih =>
    rw [evict]
    split
    · exact (ih _ _).trans (List.suffix_cons r rs)
    · exact List.suffix_refl _

theorem length_evict (budget size usage dropped : Nat) (rs : List Recorded) :
    (evict budget size usage dropped rs).1.length + (evict budget size usage dropped rs).2.2 =
      rs.length + dropped := by
  induction rs generalizing usage dropped with
  | nil => rfl
  | cons r rs ih =>
    rw [evict]
    split
    · rw [ih, List.length_cons]
      omega
    · rfl

theorem length_add_evicted_push (h : History) (command : String) (s : Snapshot) :
    (h.push command s).length + (h.push command s).evicted = h.length + h.evicted + 1 := by
  have he := length_evict h.budget s.size h.usage h.evicted h.records
  show (_ ++ [_]).length + (evict h.budget s.size h.usage h.evicted h.records).2.2 = _
  rw [List.length_append, List.length_singleton, length]
  omega

end History

end StackHeap
