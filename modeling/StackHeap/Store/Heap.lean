import StackHeap.Store.Error

/-! # The reference-counted heap

The heap is the list of its live entries in the order in which they were allocated.

* An entry starts with a count of one, its first holder.  `retain` adds a holder, `release`
  removes one, and an entry whose count reaches zero is *collected*: it leaves the heap.
* A collected entry releases every reference it holds, front to back, each with everything that
  follows from it before the next.  `releaseAll` keeps the addresses still to be released as a
  list; it ends because every step lowers the sum of all counts.
* There is no search for cycles: objects hold primitive values, and arrays hold objects.

An operation that fails keeps what it did before it failed. -/

namespace StackHeap.Store

/-- What a heap entry holds. -/
inductive Contents where
  | object (fields : List Field)
  | array (elements : List Value)
deriving DecidableEq, Repr, Inhabited

namespace Contents

/-- The values of the fields or elements, in order. -/
def values : Contents → List Value
  | object fields => fields.map (·.value)
  | array elements => elements

/-- The addresses held, in order and with repetitions. -/
def references (c : Contents) : List Address := c.values.filterMap Value.referent?

/-- The number of fields or elements. -/
def length : Contents → Nat
  | object fields => fields.length
  | array elements => elements.length

end Contents

/-- An allocation on the heap. -/
structure Entry where
  address : Address
  type : DeclaredType
  contents : Contents
  /-- The number of holders. -/
  refs : Nat
  /-- The number of entries allocated before. -/
  sequence : Nat
deriving DecidableEq, Repr, Inhabited

/-- An entry with its count changed if it is the one at an address. -/
def Entry.updateRefs (a : Address) (f : Nat → Nat) (e : Entry) : Entry :=
  if e.address = a then { e with refs := f e.refs } else e

@[simp] theorem Entry.address_updateRefs (a : Address) (f : Nat → Nat) (e : Entry) :
    (e.updateRefs a f).address = e.address := by
  unfold Entry.updateRefs
  split <;> rfl

/-- The sum of the counts of some entries. -/
def sumRefs : List Entry → Nat
  | [] => 0
  | e :: es => e.refs + sumRefs es

/-- The heap. -/
structure Heap where
  /-- The live entries in allocation order. -/
  entries : List Entry := []
  /-- The sequence number of the next entry. -/
  nextSequence : Nat := 0
  /-- The largest number of live entries. -/
  limit : Nat
deriving DecidableEq, Repr, Inhabited

/-- Operations on the heap. -/
abbrev HeapM := EStateM MemoryError Heap

namespace Heap

/-- The live entry at an address. -/
def get? (h : Heap) (a : Address) : Option Entry := h.entries.find? (·.address = a)

/-- Whether there is a live entry at an address. -/
def contains (h : Heap) (a : Address) : Bool := (h.get? a).isSome

/-- Whether that many more entries stay within the limit. -/
def hasRoom (h : Heap) (count : Nat) : Bool := decide (h.entries.length + count ≤ h.limit)

/-- The heap with the count at an address changed. -/
def updateRefs (h : Heap) (a : Address) (f : Nat → Nat) : Heap :=
  { h with entries := h.entries.map (Entry.updateRefs a f) }

/-- The heap without the entry at an address. -/
def remove (h : Heap) (a : Address) : Heap :=
  { h with entries := h.entries.filter (·.address ≠ a) }

/-- The sum of all counts. -/
def totalRefs (h : Heap) : Nat := sumRefs h.entries

theorem address_of_get? {h : Heap} {a : Address} {e : Entry} (hg : h.get? a = some e) :
    e.address = a := by simpa using List.find?_some hg

theorem get?_updateRefs (h : Heap) (a b : Address) (f : Nat → Nat) :
    (h.updateRefs a f).get? b = (h.get? b).map (Entry.updateRefs a f) := by
  have hp : ((fun e : Entry => decide (e.address = b)) ∘ Entry.updateRefs a f) =
      fun e => decide (e.address = b) := funext fun e => by simp
  simp only [get?, updateRefs, List.find?_map, hp]

theorem get?_remove (h : Heap) (a b : Address) :
    (h.remove a).get? b = if b = a then none else h.get? b := by
  simp only [get?, remove, List.find?_filter]
  split
  · next hab => simp [hab]
  · next hab =>
    congr 1
    funext e
    by_cases he : e.address = b <;> simp [he, hab]

/-! ### Allocation and retention -/

/-- Allocates an entry with one holder.  The references it holds were retained before. -/
def allocate (a : Address) (type : DeclaredType) (contents : Contents) : HeapM Unit := do
  let h ← get
  if !h.hasRoom 1 then throw (.outOfHeap h.limit)
  if h.contains a then throw (.broken (.allocatedTwice a))
  let e : Entry := ⟨a, type, contents, 1, h.nextSequence⟩
  set { h with entries := h.entries ++ [e], nextSequence := h.nextSequence + 1 }

/-- Adds a holder and returns the new count. -/
def retain (a : Address) : HeapM Nat := do
  match (← get).get? a with
  | none => throw (.broken (.dangling a))
  | some e =>
    modify (·.updateRefs a (· + 1))
    return e.refs + 1

/-- Adds a holder for each of some addresses. -/
def retainAll : List Address → HeapM Unit
  | [] => return ()
  | a :: as => do
    let _ ← retain a
    retainAll as

/-! ### Release -/

theorem sum_refs_filter_le (p : Entry → Bool) (es : List Entry) :
    sumRefs (es.filter p) ≤ sumRefs es := by
  induction es with
  | nil => simp [sumRefs]
  | cons x es ih => by_cases hx : p x <;> simp [sumRefs, hx] <;> omega

theorem sum_refs_pred_le (a : Address) (es : List Entry) :
    sumRefs (es.map (Entry.updateRefs a (· - 1))) ≤ sumRefs es := by
  induction es with
  | nil => simp [sumRefs]
  | cons x es ih =>
    by_cases hx : x.address = a <;> simp [sumRefs, Entry.updateRefs, hx] at ih ⊢ <;> omega

theorem totalRefs_remove_lt {h : Heap} {a : Address} {e : Entry} (hg : h.get? a = some e)
    (hr : e.refs ≠ 0) : (h.remove a).totalRefs < h.totalRefs := by
  simp only [get?, remove, totalRefs] at hg ⊢
  generalize h.entries = es at hg
  induction es with
  | nil => simp at hg
  | cons x es ih =>
    have hle := sum_refs_filter_le (·.address ≠ a) es
    by_cases hx : x.address = a
    · obtain rfl : x = e := by simpa [hx] using hg
      rw [List.filter_cons_of_neg (by simpa using hx), sumRefs]
      omega
    · rw [List.filter_cons_of_pos (by simpa using hx), sumRefs, sumRefs]
      exact Nat.add_lt_add_left (ih (by simpa [hx] using hg)) _

theorem totalRefs_updateRefs_lt {h : Heap} {a : Address} {e : Entry} (hg : h.get? a = some e)
    (hr : e.refs ≠ 0) : (h.updateRefs a (· - 1)).totalRefs < h.totalRefs := by
  simp only [get?, updateRefs, totalRefs] at hg ⊢
  generalize h.entries = es at hg
  induction es with
  | nil => simp at hg
  | cons x es ih =>
    have hle := sum_refs_pred_le a es
    rw [List.map_cons, sumRefs, sumRefs]
    by_cases hx : x.address = a
    · obtain rfl : x = e := by simpa [hx] using hg
      rw [Entry.updateRefs, if_pos hx]
      dsimp only
      omega
    · rw [Entry.updateRefs, if_neg hx]
      exact Nat.add_lt_add_left (ih (by simpa [hx] using hg)) _

/-- Removes one holder for each address in turn, collecting entries whose count reaches zero, and
returns the collected entries in that order. -/
def releaseAll (h : Heap) : List Address → EStateM.Result MemoryError Heap (List Entry)
  | [] => .ok [] h
  | a :: pending =>
    match hg : h.get? a with
    | none => .error (.broken (.dangling a)) h
    | some e =>
      if hz : e.refs = 0 then .error (.broken (.negativeCount a)) h
      else if e.refs = 1 then
        match (h.remove a).releaseAll (e.contents.references ++ pending) with
        | .ok collected h => .ok ({ e with refs := 0 } :: collected) h
        | .error fault h => .error fault h
      else (h.updateRefs a (· - 1)).releaseAll pending
termination_by h.totalRefs
decreasing_by
  · exact totalRefs_remove_lt hg hz
  · exact totalRefs_updateRefs_lt hg hz

/-- Removes one holder and returns what was collected as a consequence. -/
def release (a : Address) : HeapM (List Entry) := fun h => h.releaseAll [a]

end Heap

end StackHeap.Store
