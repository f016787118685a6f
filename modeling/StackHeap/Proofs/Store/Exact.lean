import StackHeap.Proofs.Store.Outcome
import StackHeap.Store.Consistency

/-! # Exact reference counts

What soundness means to someone who looks at the memory (`Memory.Exact`): every count is the number
of slots and array elements that hold the address, nothing held is missing, and every entry can be
reached from a slot.

* **Counts** are read off the balance, once the addresses held inside entries are seen to be those
  of array elements.
* **No leaks.**  An entry that no slot holds is held by an element of an entry allocated later, so
  going up the holders ends, and it ends in a slot (`Sound.reachable`). -/

namespace StackHeap.Store

open Number

/-- The elements of an array; an object has none. -/
def Contents.elements : Contents → List Value
  | .object _ => []
  | .array values => values

namespace Memory

/-- The number of slots that hold an address. -/
def slotHolders (m : Memory) (a : Address) : Nat :=
  m.stack.slots.countP fun x => x.value.referent? == some a

/-- The number of array elements that hold an address, once for each of them. -/
def elementHolders (m : Memory) (a : Address) : Nat :=
  (m.heap.entries.flatMap (·.contents.elements)).countP fun v => v.referent? == some a

/-- An address that is held by a slot, or by an element of an entry that can be reached. -/
inductive Reachable (m : Memory) : Address → Prop where
  | slot {x : Slot} {a : Address} (hx : x ∈ m.stack.slots) (ha : x.value.referent? = some a) :
      Reachable m a
  | element {e : Entry} {v : Value} {a : Address} (he : e ∈ m.heap.entries)
      (hr : Reachable m e.address) (hv : v ∈ e.contents.elements) (ha : v.referent? = some a) :
      Reachable m a

/-- The reference counts are right, and so is what lives by them. -/
structure Exact (m : Memory) : Prop where
  positive : ∀ e ∈ m.heap.entries, 1 ≤ e.refs
  counted : ∀ e ∈ m.heap.entries,
    e.refs = m.slotHolders e.address + m.elementHolders e.address
  slots : ∀ x ∈ m.stack.slots, ∀ a, x.value.referent? = some a →
    ∃ e ∈ m.heap.entries, e.address = a
  elements : ∀ holder ∈ m.heap.entries, ∀ v ∈ holder.contents.elements, ∀ a,
    v.referent? = some a → ∃ e ∈ m.heap.entries, e.address = a
  reachable : ∀ e ∈ m.heap.entries, m.Reachable e.address

namespace Sound

variable {m : Memory} {e : Entry} {a : Address}

theorem references_eq (hs : m.Sound []) (he : e ∈ m.heap.entries) :
    e.contents.references = e.contents.elements.filterMap Value.referent? := by
  cases hc : e.contents with
  | object fields =>
      have hp := hs.intact.plain e he fields hc
      rw [hc] at hp
      exact hp
  | array values => rfl

theorem slotHolders_eq (m : Memory) (a : Address) :
    m.slotHolders a = m.stack.references.count a := List.count_filterMap.symm

theorem elementHolders_eq (hs : m.Sound []) (a : Address) :
    m.elementHolders a = m.heap.references.count a := by
  have hr : m.heap.references =
      (m.heap.entries.flatMap (·.contents.elements)).filterMap Value.referent? := by
    rw [List.filterMap_flatMap]
    exact List.flatMap_congr fun e he => hs.references_eq he
  rw [hr, List.count_filterMap]
  rfl

theorem refs_eq (hs : m.Sound []) (he : e ∈ m.heap.entries) :
    e.refs = m.stack.references.count e.address + m.heap.references.count e.address := by
  have hc := hs.balanced.counted e.address
  rw [Heap.refsAt_of_get? (hs.balanced.distinct.get?_of_mem he)] at hc
  rw [hc, List.count_nil, Nat.add_zero]

/-- Following holders upwards ends in a slot. -/
theorem reachable (hs : m.Sound []) (he : e ∈ m.heap.entries) : m.Reachable e.address := by
  -- Holders were allocated later, so their distance to the next sequence number is shorter.
  generalize hn : m.heap.nextSequence - e.sequence = n
  induction n using Nat.strongRecOn generalizing e with
  | ind n ih =>
      have hpos := hs.balanced.positive e he
      rw [hs.refs_eq he] at hpos
      by_cases hslot : 0 < m.stack.references.count e.address
      · obtain ⟨x, hx, hxa⟩ := List.mem_filterMap.1 (List.count_pos_iff.1 hslot)
        exact .slot hx hxa
      · have hmem : e.address ∈ m.heap.references := List.count_pos_iff.1 (by omega)
        obtain ⟨holder, hh, hr⟩ := List.mem_flatMap.1 hmem
        have hlater := hs.intact.downward holder hh e he hr
        have hbelow := hs.intact.below holder hh
        rw [hs.references_eq hh] at hr
        obtain ⟨v, hv, hva⟩ := List.mem_filterMap.1 hr
        exact .element hh (ih _ (by omega) hh rfl) hv hva

theorem exists_entry (hs : m.Sound []) (ha : a ∈ m.stack.references ∨ a ∈ m.heap.references) :
    ∃ e ∈ m.heap.entries, e.address = a := by
  have hpos : 0 < m.stack.references.count a + m.heap.references.count a := by
    rcases ha with ha | ha
    · have := List.count_pos_iff.2 ha
      omega
    · have := List.count_pos_iff.2 ha
      omega
  obtain ⟨e, hg⟩ := hs.balanced.exists_get? (a := a) (by rw [List.count_nil]; omega)
  exact ⟨e, Heap.mem_of_get? hg, Heap.address_of_get? hg⟩

/-- **The counts of a sound memory are exact.** -/
theorem exact (hs : m.Sound []) : m.Exact where
  positive e he := hs.balanced.positive e he
  counted e he := by
    rw [slotHolders_eq, hs.elementHolders_eq]
    exact hs.refs_eq he
  slots x hx a ha := hs.exists_entry (.inl (List.mem_filterMap.2 ⟨x, hx, ha⟩))
  elements holder hh v hv a ha := by
    refine hs.exists_entry (.inr (List.mem_flatMap.2 ⟨holder, hh, ?_⟩))
    rw [hs.references_eq hh]
    exact List.mem_filterMap.2 ⟨v, hv, ha⟩
  reachable e he := hs.reachable he

/-! ### The recount -/

theorem holders_eq (m : Memory) : m.holders = m.stack.references ++ m.heap.references := by
  unfold holders Stack.references Stack.slots
  rw [List.filterMap_flatMap]
  rfl

/-- **A recount of a sound memory finds no fault.** -/
theorem fault?_eq_none (hs : m.Sound []) : m.fault? = none := by
  refine m.fault?_eq_none_iff.2 ⟨fun x hx => ?_, fun a ha => ?_, fun e he => ?_⟩
  · rw [misfits, hs.fitting x hx, bne_self_eq_false]
  · rw [holders_eq, List.mem_append] at ha
    obtain ⟨e, he, rfl⟩ := hs.exists_entry ha
    rw [Heap.contains, hs.balanced.distinct.get?_of_mem he]
    rfl
  · have hpos := hs.balanced.positive e he
    refine ⟨by omega, ?_⟩
    rw [holders_eq, List.count_append]
    exact hs.refs_eq he

end Sound

end Memory

end StackHeap.Store
