import StackHeap.Proofs.Address.Fresh
import StackHeap.Proofs.Store.Balance
import StackHeap.Proofs.Store.Slots
import StackHeap.Store.Memory

/-! # Soundness of the memory

The invariant of the memory (`Memory.Sound`), and the moves that operations are made of.

* **The invariant.**  The stack is well formed, slots hold values of the kind of their type, and
  the heap is balanced, where the holders outside are the slots and a list of addresses *in hand*.
  Entries refer only to entries allocated before, have addresses from the supply, and no object
  holds an address (`Heap.Intact`).
* **The moves.**  Retaining and allocating put addresses in hand, a slot takes the address of its
  value over, releasing lets addresses in hand go.  In between the addresses in hand make up for
  what slots do not hold yet, so an operation is sound when it starts and ends with empty hands.
* **Rebinding.**  The old entry is released while the slot still shows it.  The entry that comes
  next is held by another slot or is in hand, so the cascade of the old one cannot collect it
  (`Sound.rebound`). -/

namespace StackHeap.Store

open Number

/-! ### The heap apart from its counts -/

/-- What does not change with the counts of a heap. -/
structure Heap.Intact (h : Heap) (used : Nat) : Prop where
  below : ∀ e ∈ h.entries, e.sequence < h.nextSequence
  /-- References point to entries allocated before. -/
  downward : ∀ e ∈ h.entries, ∀ x ∈ h.entries, x.address ∈ e.contents.references →
    x.sequence < e.sequence
  /-- Addresses were handed out. -/
  supplied : ∀ e ∈ h.entries, ∃ k ≤ used, e.address = Address.nth k
  /-- Objects hold no addresses. -/
  plain : ∀ e ∈ h.entries, ∀ fields, e.contents = .object fields → e.contents.references = []

namespace Heap.Intact

variable {h h' : Heap} {used : Nat}

theorem kept (hi : h.Intact used) (hk : h.Kept h') : h'.Intact used where
  below := hk.below hi.below
  downward e he x hx hr := by
    obtain ⟨n, hn⟩ := hk.exists_mem he
    obtain ⟨k, hk⟩ := hk.exists_mem hx
    have hd := hi.downward _ hn _ hk hr
    exact hd
  supplied e he := by
    obtain ⟨n, hn⟩ := hk.exists_mem he
    have hu := hi.supplied _ hn
    exact hu
  plain e he := by
    obtain ⟨n, hn⟩ := hk.exists_mem he
    have hp := hi.plain _ hn
    exact hp

theorem advance (hi : h.Intact used) : h.Intact (used + 1) :=
  { hi with
    supplied := fun e he => by
      obtain ⟨k, hk, ha⟩ := hi.supplied e he
      exact ⟨k, Nat.le_succ_of_le hk, ha⟩ }

/-- The next address is no live entry's as long as the supply keeps numbers apart. -/
theorem fresh (hi : h.Intact used) (hu : used + 1 ≤ pow2 53) :
    h.get? (Address.nth (used + 1)) = none := by
  cases hg : h.get? (Address.nth (used + 1)) with
  | none => rfl
  | some e =>
      obtain ⟨k, hk, ha⟩ := hi.supplied e (mem_of_get? hg)
      have hku : k = used + 1 :=
        Address.nth_injOn (by omega) hu (ha.symm.trans (address_of_get? hg))
      omega

theorem appended {type : DeclaredType} {c : Contents} (hi : h.Intact used)
    (hold : ∀ e ∈ h.entries, Address.nth (used + 1) ∉ e.contents.references)
    (hown : Address.nth (used + 1) ∉ c.references)
    (hc : ∀ fields, c = .object fields → c.references = []) :
    (h.appended ⟨Address.nth (used + 1), type, c, 1, h.nextSequence⟩).Intact (used + 1) where
  below := below_appended hi.below rfl
  downward e he x hx hr := by
    rcases List.mem_append.1 he with he | he <;> rcases List.mem_append.1 hx with hx | hx
    · exact hi.downward e he x hx hr
    · rw [List.mem_singleton.1 hx] at hr
      exact absurd hr (hold e he)
    · rw [List.mem_singleton.1 he]
      exact hi.below x hx
    · rw [List.mem_singleton.1 he, List.mem_singleton.1 hx] at hr
      exact absurd hr hown
  supplied e he := by
    rcases List.mem_append.1 he with he | he
    · exact hi.advance.supplied e he
    · rw [List.mem_singleton.1 he]
      exact ⟨used + 1, Nat.le_refl _, rfl⟩
  plain e he := by
    rcases List.mem_append.1 he with he | he
    · exact hi.plain e he
    · rw [List.mem_singleton.1 he]
      exact hc

end Heap.Intact

namespace Memory

/-! ### Moves -/

/-- The memory with another holder for each of some addresses. -/
def retained (m : Memory) (as : List Address) : Memory := { m with heap := m.heap.retained as }

/-- The memory with a new entry at the next address. -/
def allocated (m : Memory) (type : DeclaredType) (contents : Contents) : Memory where
  stack := m.stack
  heap := m.heap.appended ⟨m.addresses.next, type, contents, 1, m.heap.nextSequence⟩
  addresses := m.addresses.advance
  maxFrames := m.maxFrames

/-- The memory with a new slot at the next address. -/
def declared (m : Memory) (id : Nat) (name : String) (type : DeclaredType) (value : Value) :
    Memory where
  stack := m.stack.update id (·.push ⟨m.addresses.next, name, type, value⟩)
  heap := m.heap
  addresses := m.addresses.advance
  maxFrames := m.maxFrames

/-- The memory with the value of a slot changed. -/
def written (m : Memory) (id : Nat) (name : String) (value : Value) : Memory :=
  { m with stack := m.stack.update id (·.write name value) }

/-! ### The invariant -/

/-- The memory is sound while some addresses are in hand. -/
structure Sound (m : Memory) (held : List Address) : Prop where
  stack : m.stack.WellFormed
  fitting : ∀ x ∈ m.stack.slots, x.type.isReference = x.value.isReference
  balanced : m.heap.Balanced fun a => m.stack.references.count a + held.count a
  intact : m.heap.Intact m.addresses.used

namespace Sound

variable {m : Memory} {held : List Address} {id : Nat} {name : String} {f : Frame} {x : Slot}

theorem new (config : Config) : (Memory.new config).Sound [] where
  stack := Stack.WellFormed.new _
  fitting x hx := absurd hx List.not_mem_nil
  balanced := ⟨List.nodup_nil, fun e he => absurd he List.not_mem_nil, fun a => rfl⟩
  intact := by
    constructor <;> exact fun e he => absurd he List.not_mem_nil

/-- What slots hold is live. -/
theorem isSome_get? {a : Address} (hs : m.Sound held) (ha : a ∈ m.stack.references ++ held) :
    (m.heap.get? a).isSome := by
  have hc : 0 < (m.stack.references ++ held).count a := List.count_pos_iff.2 ha
  rw [List.count_append] at hc
  obtain ⟨e, he⟩ := hs.balanced.exists_get? (a := a) (by omega)
  rw [he]
  rfl

/-- So is what entries hold. -/
theorem isSome_get?_of_mem_entries {a : Address} {e : Entry} (hs : m.Sound held)
    (he : e ∈ m.heap.entries) (ha : a ∈ e.contents.references) : (m.heap.get? a).isSome := by
  have hpos : 0 < m.heap.references.count a :=
    List.count_pos_iff.2 (List.mem_flatMap.2 ⟨e, he, ha⟩)
  obtain ⟨x, hx⟩ := hs.balanced.exists_get? (a := a) (by omega)
  rw [hx]
  rfl

theorem retained {as : List Address} (hs : m.Sound held)
    (hl : ∀ a ∈ as, (m.heap.get? a).isSome) : (m.retained as).Sound (as ++ held) where
  stack := hs.stack
  fitting := hs.fitting
  balanced := (hs.balanced.retained hl).congr fun a => by
    rw [List.count_append]
    show _ = m.stack.references.count a + _
    omega
  intact := hs.intact.kept (.retained _ _)

theorem allocated {type : DeclaredType} {c : Contents} (hs : m.Sound (c.references ++ held))
    (hg : m.heap.get? m.addresses.next = none)
    (hc : ∀ fields, c = .object fields → c.references = []) :
    (m.allocated type c).Sound (m.addresses.next :: held) where
  stack := hs.stack
  fitting := hs.fitting
  balanced := by
    have hb : m.heap.Balanced fun a =>
        (m.stack.references.count a + held.count a) + c.references.count a :=
      hs.balanced.congr fun a => by rw [List.count_append]; omega
    refine (hb.appended (e := ⟨m.addresses.next, type, c, 1, m.heap.nextSequence⟩) hg rfl).congr
      fun a => ?_
    show _ + [m.addresses.next].count a = m.stack.references.count a + _
    rw [Nat.add_assoc, Nat.add_comm (held.count a), ← List.count_append]
    rfl
  intact := by
    obtain ⟨hext, hrefs⟩ := hs.balanced.not_held hg
    rw [List.count_append] at hext
    refine hs.intact.appended ?_ ?_ hc
    · intro e he hr
      exact List.count_eq_zero.1 hrefs (List.mem_flatMap.2 ⟨e, he, hr⟩)
    · exact List.count_eq_zero.1 (by omega : c.references.count m.addresses.next = 0)

theorem declared {type : DeclaredType} {v : Value} (hs : m.Sound (v.referent?.toList ++ held))
    (hf : m.stack.frame? id = some f) (hn : f.slot? name = none)
    (hk : type.isReference = v.isReference) : (m.declared id name type v).Sound held := by
  obtain ⟨l, r, hl, hu⟩ := hs.stack.exists_slots_push hf ⟨m.addresses.next, name, type, v⟩
  refine ⟨hs.stack.declare hf hn, ?_, ?_, hs.intact.advance⟩
  · intro y hy
    rcases hs.stack.mem_slots_push hf hy with hy | rfl
    · exact hs.fitting y hy
    · exact hk
  · refine hs.balanced.congr fun a => ?_
    rw [Stack.references, Stack.references, Memory.declared, hl, hu,
      Stack.count_references_insert, List.count_append]
    dsimp only
    omega

/-- A slot takes over the address of its new value and leaves that of its old value in hand. -/
theorem written {v : Value} (hs : m.Sound (v.referent?.toList ++ held))
    (hf : m.stack.frame? id = some f) (hx : f.slot? name = some x)
    (hk : x.type.isReference = v.isReference) :
    (m.written id name v).Sound (x.value.referent?.toList ++ held) := by
  obtain ⟨l, r, hl, hu⟩ := hs.stack.exists_slots_write hf hx v
  refine ⟨hs.stack.write hf name v, ?_, ?_, hs.intact⟩
  · intro y hy
    rcases hs.stack.mem_slots_write hf hx hy with hy | rfl
    · exact hs.fitting y hy
    · exact hk
  · refine hs.balanced.congr fun a => ?_
    rw [Stack.references, Stack.references, Memory.written, hl, hu,
      Stack.count_references_insert, Stack.count_references_insert, List.count_append,
      List.count_append]
    dsimp only
    omega

/-- Releasing before retaining is sound: what the slot shows next is in hand, or is held by a slot
that shows something else than this one. -/
theorem rebound {v : Value} {taken : List Address} (hs : m.Sound held)
    (hf : m.stack.frame? id = some f) (hx : f.slot? name = some x)
    (hk : x.type.isReference = v.isReference) (hv : v.referent?.toList = taken ++ held)
    (ht : ∀ a ∈ taken, ∃ y ∈ m.stack.slots, y ≠ x ∧ y.value.referent? = some a) :
    ∃ collected h, m.heap.releaseAll x.value.referent?.toList = .ok collected h ∧
      m.heap.Released collected h ∧ (∀ a ∈ taken, (h.get? a).isSome) ∧
      ({ m with heap := h.retained taken }.written id name v).Sound [] := by
  obtain ⟨l, r, hl, hu⟩ := hs.stack.exists_slots_write hf hx v
  -- The holders outside once the slot no longer counts.
  let rest : Address → Nat := fun a =>
    ((l ++ r).filterMap (·.value.referent?)).count a + held.count a
  have hb : m.heap.Balanced fun a => rest a + x.value.referent?.toList.count a :=
    hs.balanced.congr fun a => by
      rw [Stack.references, hl, Stack.count_references_insert]
      show _ = _ + _ + _
      omega
  obtain ⟨collected, h, hr, hbal, hrel⟩ := Heap.releaseAll_spec hb
  have hlive : ∀ a ∈ taken, (h.get? a).isSome := by
    intro a ha
    obtain ⟨y, hy, hyx, hya⟩ := ht a ha
    have hmem : a ∈ (l ++ r).filterMap (·.value.referent?) := by
      refine List.mem_filterMap.2 ⟨y, ?_, hya⟩
      rw [hl] at hy
      rcases List.mem_append.1 hy with hy | hy
      · exact List.mem_append_left _ hy
      · exact List.mem_append_right _ ((List.mem_cons.1 hy).resolve_left hyx)
    have hpos := List.count_pos_iff.2 hmem
    obtain ⟨e, he⟩ := hbal.exists_get? (a := a) (by show 0 < _ + _ + _; omega)
    rw [he]
    rfl
  refine ⟨collected, h, hr, hrel, hlive, hs.stack.write hf name v, ?_, ?_,
    (hs.intact.kept hrel.toKept).kept (.retained _ _)⟩
  · intro y hy
    rcases hs.stack.mem_slots_write hf hx hy with hy | rfl
    · exact hs.fitting y hy
    · exact hk
  · refine (hbal.retained hlive).congr fun a => ?_
    rw [Stack.references, Memory.written, hu, Stack.count_references_insert]
    dsimp only [rest]
    rw [hv, List.count_append, List.count_nil]
    omega

/-! ### Scopes -/

theorem push (hs : m.Sound held) (name : String) :
    Sound { m with stack := m.stack.push name } held where
  stack := hs.stack.push name
  fitting x hx := hs.fitting x (by rwa [Stack.slots_push] at hx)
  balanced := hs.balanced.congr fun a => by
    rw [Stack.references, Stack.references, Stack.slots_push]
  intact := hs.intact

/-- Popping a frame leaves the addresses of its slots in hand. -/
theorem pop {t : Stack} (hs : m.Sound held) (hp : m.stack.pop? = some (f, t)) :
    Sound { m with stack := t } (f.references ++ held) where
  stack := hs.stack.pop hp
  fitting x hx := hs.fitting x (by rw [Stack.slots_of_pop? hp]; exact List.mem_append_left _ hx)
  balanced := hs.balanced.congr fun a => by
    rw [Stack.references_of_pop? hp, List.count_append, List.count_append, Nat.add_assoc]
  intact := hs.intact

end Sound

/-- Releasing each address in turn is releasing them all. -/
theorem releaseEach_eq (as : List Address) (h : Heap) : releaseEach as h = h.releaseAll as := by
  induction as generalizing h with
  | nil =>
      rw [Heap.releaseAll_nil]
      rfl
  | cons a as ih =>
      have happ := h.releaseAll_append [a] as
      rw [List.singleton_append] at happ
      rw [happ]
      simp only [releaseEach, bind, EStateM.bind, Heap.release]
      cases h.releaseAll [a] with
      | ok collected h₁ =>
          dsimp only
          rw [ih]
          cases h₁.releaseAll as <;> rfl
      | error fault h₁ => rfl

end Memory

end StackHeap.Store
