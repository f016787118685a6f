import StackHeap.Proofs.Store.Exact

/-! # Separation of scopes

While an inner scope is open, the memory is the outer one with frames on top and entries at the end,
and nothing on top or at the end refers to an outer entry (`Memory.Above`).

* **The heap.**  A release that starts outside some first entries never gets to them: they keep
  their places and their counts (`Heap.Over`).
* **Steps** of the innermost frame keep the separation (`Step.above`), because a variable found
  there holds no outer address and a new address is not an outer one.
* **The way back.**  Once the frames on top are gone, so are the entries at the end: their last
  holder would have to be among themselves, allocated after all of them
  (`Memory.Above.entries_eq`). -/

namespace StackHeap.Store

open Number

/-! ### The heap over some first entries -/

/-- The addresses of some entries are avoided. -/
def Avoids (outer : List Entry) (as : List Address) : Prop :=
  ∀ a ∈ as, a ∉ outer.map Entry.address

namespace Avoids

variable {outer : List Entry} {as bs : List Address}

theorem append (ha : Avoids outer as) (hb : Avoids outer bs) : Avoids outer (as ++ bs) := by
  intro a hmem
  rcases List.mem_append.1 hmem with hm | hm
  · exact ha a hm
  · exact hb a hm

theorem mono (ha : Avoids outer as) (hs : ∀ b ∈ bs, b ∈ as) : Avoids outer bs :=
  fun b hb => ha b (hs b hb)

theorem nil : Avoids outer [] := fun _ ha => absurd ha List.not_mem_nil

end Avoids

namespace Heap

variable {h h' : Heap} {outer : List Entry} {a : Address}

/-- The heap starts with some entries, and the others do not refer to them. -/
def Over (outer : List Entry) (h : Heap) : Prop :=
  ∃ inner, h.entries = outer ++ inner ∧ ∀ e ∈ inner, Avoids outer e.contents.references

theorem Over.refl (h : Heap) : h.Over h.entries :=
  ⟨[], (List.append_nil _).symm, fun _ he => absurd he List.not_mem_nil⟩

theorem Over.updateRefs (ho : h.Over outer) (ha : a ∉ outer.map Entry.address) (f : Nat → Nat) :
    (h.updateRefs a f).Over outer := by
  obtain ⟨inner, he, hi⟩ := ho
  refine ⟨inner.map (Entry.updateRefs a f), ?_, ?_⟩
  · have hid : outer.map (Entry.updateRefs a f) = outer := by
      refine (List.map_congr_left fun e hmem => Entry.updateRefs_of_ne f ?_).trans (List.map_id _)
      rintro rfl
      exact ha (List.mem_map_of_mem hmem)
    rw [Heap.updateRefs, he, List.map_append, hid]
  · intro e hmem
    obtain ⟨x, hx, rfl⟩ := List.mem_map.1 hmem
    rw [Entry.contents_updateRefs]
    exact hi x hx

theorem Over.remove (ho : h.Over outer) (ha : a ∉ outer.map Entry.address) :
    (h.remove a).Over outer := by
  obtain ⟨inner, he, hi⟩ := ho
  refine ⟨inner.filter (·.address ≠ a), ?_, fun e hmem => hi e (List.mem_filter.1 hmem).1⟩
  have hid : outer.filter (·.address ≠ a) = outer := by
    refine List.filter_eq_self.2 fun e hmem => decide_eq_true ?_
    rintro rfl
    exact ha (List.mem_map_of_mem hmem)
  rw [Heap.remove, he, List.filter_append, hid]

/-- An entry at an address that is no outer one is an inner entry. -/
theorem Over.avoids_of_get? {e : Entry} (ho : h.Over outer) (ha : a ∉ outer.map Entry.address)
    (hg : h.get? a = some e) : Avoids outer e.contents.references := by
  obtain ⟨inner, he, hi⟩ := ho
  have hmem := mem_of_get? hg
  rw [he] at hmem
  rcases List.mem_append.1 hmem with hm | hm
  · rw [← address_of_get? hg] at ha
    exact absurd (List.mem_map_of_mem hm) ha
  · exact hi e hm

/-- **A release that starts outside the first entries leaves them alone.** -/
theorem Over.releaseAll {pending : List Address} {collected : List Entry} (ho : h.Over outer)
    (hp : Avoids outer pending) (hr : h.releaseAll pending = .ok collected h') : h'.Over outer := by
  refine releaseAll_ok_induct
    (motive := fun h pending _ => h.Over outer → Avoids outer pending → h'.Over outer)
    (fun ho _ => ho) ?_ ?_ hr ho hp
  · intro h a e pending collected hg h1 ih ho hp
    have ha := hp a List.mem_cons_self
    refine ih (ho.remove ha) ((ho.avoids_of_get? ha hg).append ?_)
    exact hp.mono fun b hb => List.mem_cons_of_mem _ hb
  · intro h a e pending collected hg h1 ih ho hp
    apply ih (ho.updateRefs (hp a List.mem_cons_self) _)
    exact hp.mono fun b hb => List.mem_cons_of_mem _ hb

theorem Over.retained {as : List Address} (ho : h.Over outer) (ha : Avoids outer as) :
    (h.retained as).Over outer := by
  induction as generalizing h with
  | nil => exact ho
  | cons a as ih =>
      apply ih (ho.updateRefs (ha a List.mem_cons_self) _)
      exact ha.mono fun b hb => List.mem_cons_of_mem _ hb

theorem Over.appended {e : Entry} (ho : h.Over outer) (he : Avoids outer e.contents.references) :
    (h.appended e).Over outer := by
  obtain ⟨inner, hl, hi⟩ := ho
  refine ⟨inner ++ [e], by rw [Heap.appended, hl, List.append_assoc], fun x hx => ?_⟩
  rcases List.mem_append.1 hx with hx | hx
  · exact hi x hx
  · rw [List.mem_singleton.1 hx]
    exact he

theorem Over.not_mem_of_get? (ho : h.Over outer) (hg : h.get? a = none) :
    a ∉ outer.map Entry.address := by
  intro hm
  obtain ⟨inner, hl, -⟩ := ho
  obtain ⟨e, he, hea⟩ := List.mem_map.1 hm
  have hmem : e ∈ h.entries := by
    rw [hl]
    exact List.mem_append_left _ he
  exact List.find?_eq_none.1 hg e hmem (decide_eq_true hea)

end Heap

/-! ### The top of the stack -/

namespace Stack

variable {s : Stack} {f : Frame} {below : List Frame}

theorem current_eq (hs : s.frames = below ++ [f]) : s.current = f := by
  have hl : s.frames.getLast? = some f := by rw [hs, List.getLast?_concat]
  rw [frames, List.getLast?_cons] at hl
  exact Option.some.inj hl

/-- Every stack has an innermost frame. -/
theorem frames_eq_current (s : Stack) : ∃ below, s.frames = below ++ [s.current] := by
  have hne : s.frames ≠ [] := List.cons_ne_nil _ _
  have hs := (List.dropLast_append_getLast hne).symm
  exact ⟨_, by rw [current_eq hs]; exact hs⟩

theorem current_mem (s : Stack) : s.current ∈ s.frames := by
  obtain ⟨below, hb⟩ := s.frames_eq_current
  rw [hb]
  exact List.mem_append_right _ List.mem_cons_self

/-- A change to the innermost frame leaves the others alone. -/
theorem WellFormed.frames_update_current (hs : s.WellFormed) (g : Frame → Frame)
    (hf : s.frames = below ++ [f]) : (s.update f.id g).frames = below ++ [g f] := by
  have hi := hs.ids
  rw [hf, List.map_append, List.pairwise_append] at hi
  have hbelow : ∀ x ∈ below, ¬ x.id = f.id := by
    intro x hx
    have := hi.2.2 x.id (List.mem_map_of_mem hx) f.id List.mem_cons_self
    omega
  rw [frames_update, hf, List.map_append, map_ite_eq_self hbelow, List.map_singleton, if_pos rfl]

/-- The innermost frame is the one of its number. -/
theorem WellFormed.eq_current (hs : s.WellFormed) {x : Frame}
    (hx : s.frame? s.current.id = some x) : x = s.current :=
  hs.eq_of_id s.current_mem (mem_of_frame? hx) (id_of_frame? hx)

theorem WellFormed.frame?_current (hs : s.WellFormed) : s.frame? s.current.id = some s.current := by
  cases hf : s.frame? s.current.id with
  | none => exact absurd (decide_eq_true rfl) (List.find?_eq_none.1 hf s.current s.current_mem)
  | some f => rw [hs.eq_current hf]

end Stack

/-! ### Separation -/

/-- The memory is an outer one with frames on top and entries at the end, and none of these holds
the address of an outer entry. -/
structure Memory.Above (outer m : Memory) : Prop where
  heap : m.heap.Over outer.heap.entries
  stack : ∃ inner, m.stack.frames = outer.stack.frames ++ inner ∧
    ∀ f ∈ inner, Avoids outer.heap.entries f.references

namespace Memory.Above

variable {outer m : Memory} {name : String} {x : Slot} {type : DeclaredType} {v : Value}

/-- With a frame on top, the innermost frame is one of those on top. -/
theorem exists_current (ha : outer.Above m) (hd : outer.stack.depth < m.stack.depth) :
    ∃ inner, m.stack.frames = (outer.stack.frames ++ inner) ++ [m.stack.current] ∧
      (∀ f ∈ inner, Avoids outer.heap.entries f.references) ∧
      Avoids outer.heap.entries m.stack.current.references := by
  obtain ⟨inner, hf, hi⟩ := ha.stack
  have hne : inner ≠ [] := by
    rintro rfl
    rw [Stack.depth, Stack.depth, hf, List.append_nil] at hd
    exact Nat.lt_irrefl _ hd
  have hsplit : m.stack.frames =
      (outer.stack.frames ++ inner.dropLast) ++ [inner.getLast hne] := by
    rw [hf, List.append_assoc, List.dropLast_append_getLast hne]
  rw [Stack.current_eq hsplit]
  exact ⟨inner.dropLast, hsplit, fun f hmem => hi f (List.dropLast_subset _ hmem),
    hi _ (List.getLast_mem hne)⟩

/-- A variable of the innermost frame holds no outer address. -/
theorem avoids_of_slot? (ha : outer.Above m) (hd : outer.stack.depth < m.stack.depth)
    (hx : m.stack.current.slot? name = some x) :
    Avoids outer.heap.entries x.value.referent?.toList := by
  obtain ⟨-, -, -, hc⟩ := ha.exists_current hd
  refine hc.mono fun a hmem => ?_
  exact List.mem_filterMap.2 ⟨x, Frame.mem_of_slot? hx, Option.mem_toList.1 hmem⟩

/-- A change to the innermost frame stays on top. -/
theorem exists_update (ha : outer.Above m) (hs : m.stack.WellFormed)
    (hd : outer.stack.depth < m.stack.depth) {g : Frame → Frame}
    (hg : Avoids outer.heap.entries (g m.stack.current).references) :
    ∃ inner, (m.stack.update m.stack.current.id g).frames = outer.stack.frames ++ inner ∧
      ∀ f ∈ inner, Avoids outer.heap.entries f.references := by
  obtain ⟨inner, hf, hi, -⟩ := ha.exists_current hd
  refine ⟨inner ++ [g m.stack.current], ?_, fun f hmem => ?_⟩
  · rw [hs.frames_update_current g hf, List.append_assoc]
  · rcases List.mem_append.1 hmem with hmem | hmem
    · exact hi f hmem
    · rw [List.mem_singleton.1 hmem]
      exact hg

theorem exists_write (ha : outer.Above m) (hs : m.stack.WellFormed)
    (hd : outer.stack.depth < m.stack.depth) (name : String)
    (hv : Avoids outer.heap.entries v.referent?.toList) :
    ∃ inner, (m.stack.update m.stack.current.id (·.write name v)).frames =
      outer.stack.frames ++ inner ∧ ∀ f ∈ inner, Avoids outer.heap.entries f.references := by
  obtain ⟨-, -, -, hc⟩ := ha.exists_current hd
  refine ha.exists_update hs hd fun a hmem => ?_
  obtain ⟨y, hy, hya⟩ := List.mem_filterMap.1 hmem
  obtain ⟨z, hz, rfl⟩ := List.mem_map.1 hy
  split at hya
  · exact hv a (Option.mem_toList.2 hya)
  · exact hc a (List.mem_filterMap.2 ⟨z, hz, hya⟩)

theorem declared (ha : outer.Above m) (hs : m.stack.WellFormed)
    (hd : outer.stack.depth < m.stack.depth)
    (hv : Avoids outer.heap.entries v.referent?.toList) :
    outer.Above (m.declared m.stack.current.id name type v) where
  heap := ha.heap
  stack := by
    obtain ⟨-, -, -, hc⟩ := ha.exists_current hd
    refine ha.exists_update hs hd fun a hmem => ?_
    obtain ⟨y, hy, hya⟩ := List.mem_filterMap.1 hmem
    rcases List.mem_append.1 hy with hy | hy
    · exact hc a (List.mem_filterMap.2 ⟨y, hy, hya⟩)
    · rw [List.mem_singleton.1 hy] at hya
      exact hv a (Option.mem_toList.2 hya)

theorem written (ha : outer.Above m) (hs : m.stack.WellFormed)
    (hd : outer.stack.depth < m.stack.depth)
    (hv : Avoids outer.heap.entries v.referent?.toList) :
    outer.Above (m.written m.stack.current.id name v) := ⟨ha.heap, ha.exists_write hs hd name hv⟩

theorem retained {as : List Address} (ha : outer.Above m) (hv : Avoids outer.heap.entries as) :
    outer.Above (m.retained as) := ⟨ha.heap.retained hv, ha.stack⟩

theorem allocated {c : Contents} (ha : outer.Above m)
    (hc : Avoids outer.heap.entries c.references) : outer.Above (m.allocated type c) :=
  ⟨ha.heap.appended hc, ha.stack⟩

theorem object {category : String} {fields : List Field} (ha : outer.Above m)
    (hfree : ∀ v ∈ fields.map (·.value), v.referent? = none) :
    outer.Above (m.allocated (.object category) (.object fields)) := by
  apply ha.allocated
  rw [references_object hfree]
  exact .nil

/-- What the elements of an array yield in the innermost frame is not outer. -/
theorem avoids_of_elementYields {elements : List Element} {values : List Value} {id : Nat}
    (ha : outer.Above m) (hd : outer.stack.depth < m.stack.depth)
    (hfree : (Operation.declareArray id name type elements).AddressFree)
    (hv : List.Forall₂ (ElementYields m.stack.current type) elements values) :
    Avoids outer.heap.entries (values.filterMap Value.referent?) := by
  intro a hmem
  obtain ⟨v, hvs, hva⟩ := List.mem_filterMap.1 hmem
  obtain ⟨element, he, hy⟩ := exists_mem_of_forall₂ hv hvs
  cases hy with
  | value v =>
      have hn : v.referent? = none := hfree v (List.mem_filterMap.2 ⟨_, he, rfl⟩)
      rw [hn] at hva
      cases hva
  | copy hx _ =>
      rw [Slot.referent?_valueAs] at hva
      exact ha.avoids_of_slot? hd hx a (Option.mem_toList.2 hva)

/-- A new address is not an outer one. -/
theorem avoids_next (ha : outer.Above m) (hg : m.heap.get? m.addresses.next = none) :
    Avoids outer.heap.entries [m.addresses.next] := by
  intro a hmem
  rw [List.mem_singleton.1 hmem]
  exact ha.heap.not_mem_of_get? hg

theorem rebound {taken : List Address} {collected : List Entry} {m' : Memory}
    (ha : outer.Above m) (hs : m.stack.WellFormed) (hd : outer.stack.depth < m.stack.depth)
    (hx : m.stack.current.slot? name = some x)
    (hv : Avoids outer.heap.entries v.referent?.toList) (ht : Avoids outer.heap.entries taken)
    (hr : Rebound m m.stack.current.id name x.value v taken collected m') : outer.Above m' := by
  cases hr with
  | same he => exact ha
  | changed hne hr =>
      exact ⟨(ha.heap.releaseAll (ha.avoids_of_slot? hd hx) hr).retained ht,
        ha.exists_write hs hd name hv⟩

end Memory.Above

/-- **A step of the innermost frame keeps the scopes apart.** -/
theorem Step.above {outer m m' : Memory} {op : Operation} {answer : Answer} (hs : m.Sound [])
    (ha : outer.Above m) (hd : outer.stack.depth < m.stack.depth) (hfree : op.AddressFree)
    (hid : ∀ i, op.frame? = some i → i = m.stack.current.id) (h : Step m op answer m') :
    outer.Above m' := by
  have hw := hs.stack
  have hnone : ∀ {v : Value}, v.referent? = none →
      Avoids outer.heap.entries v.referent?.toList := by
    intro v hv
    rw [hv]
    exact .nil
  cases h with
  | declareScalar hf hn hv =>
      obtain rfl := hid _ rfl
      refine ha.declared hw hd (hnone ?_)
      rw [Value.referent?_widen, Value.referent?_eq_none hv]
  | declareNull hf hn ht =>
      obtain rfl := hid _ rfl
      exact ha.declared hw hd .nil
  | declareObject hf hn hr hg =>
      obtain rfl := hid _ rfl
      exact (ha.object hfree).declared hw hd (ha.avoids_next hg)
  | declareArray hf hn hr hg hv =>
      obtain rfl := hid _ rfl
      obtain rfl := hw.eq_current hf
      have hin := ha.avoids_of_elementYields hd hfree hv
      refine Memory.Above.declared ?_ hw hd (ha.avoids_next hg)
      exact (ha.retained hin).allocated hin
  | declareCopy hf hn hx hacc =>
      obtain rfl := hid _ rfl
      obtain rfl := hw.eq_current hf
      have hin := ha.avoids_of_slot? hd hx
      rw [← Slot.referent?_valueAs] at hin
      exact (ha.retained hin).declared hw hd hin
  | assignValue hf ht hx hacc hp =>
      obtain rfl := hid _ rfl
      obtain rfl := hw.eq_current hf
      have hin := ha.avoids_of_slot? hd hx
      rw [← Slot.referent?_valueAs] at hin
      exact ha.written hw hd hin
  | assignReference hf ht hx hacc hp hr =>
      obtain rfl := hid _ rfl
      obtain rfl := hw.eq_current hf
      have hin := ha.avoids_of_slot? hd hx
      exact ha.rebound hw hd ht hin hin hr
  | assignLiteral hf ht hp hacc hv =>
      obtain rfl := hid _ rfl
      refine ha.written hw hd (hnone ?_)
      rw [Value.referent?_widen, Value.referent?_eq_none hv]
  | assignNull hf ht hp hr =>
      obtain rfl := hid _ rfl
      obtain rfl := hw.eq_current hf
      exact ha.rebound hw hd ht (v := .null) .nil .nil hr
  | assignNew hf ht hp hroom hg hr =>
      obtain rfl := hid _ rfl
      obtain rfl := hw.eq_current hf
      exact (ha.object hfree).rebound hw hd ht (v := .objectRef m.addresses.next)
        (ha.avoids_next hg) .nil hr
  | @enter name hdepth =>
      obtain ⟨inner, hf, hi⟩ := ha.stack
      refine ⟨ha.heap, inner ++ [⟨m.stack.nextId, name, []⟩], ?_, fun f hmem => ?_⟩
      · rw [Stack.frames_push, hf, List.append_assoc]
      · rcases List.mem_append.1 hmem with hmem | hmem
        · exact hi f hmem
        · rw [List.mem_singleton.1 hmem]
          exact .nil
  | leave hp hr =>
      obtain ⟨inner, hf, hi, hc⟩ := ha.exists_current hd
      obtain ⟨ht, hf'⟩ := List.append_inj' ((Stack.frames_of_pop? hp).symm.trans hf) rfl
      refine ⟨ha.heap.releaseAll ?_ hr, inner, ht, hi⟩
      rw [List.singleton_inj.1 hf']
      exact hc

/-! ### The way back -/

namespace Memory.Above

variable {outer m : Memory}

/-- At the outer depth there are no frames on top. -/
theorem frames_eq (ha : outer.Above m) (hd : m.stack.depth = outer.stack.depth) :
    m.stack.frames = outer.stack.frames := by
  obtain ⟨inner, hf, -⟩ := ha.stack
  rw [Stack.depth, Stack.depth, hf, List.length_append] at hd
  have hnil : inner = [] := List.eq_nil_of_length_eq_zero (by omega)
  rw [hf, hnil, List.append_nil]

/-- **Once the frames on top are gone, nothing is left of the scope.** -/
theorem entries_eq (ho : outer.Sound []) (hs : m.Sound []) (ha : outer.Above m)
    (hf : m.stack.frames = outer.stack.frames) : m.heap.entries = outer.heap.entries := by
  obtain ⟨inner, he, hi⟩ := ha.heap
  have hdist := hs.balanced.distinct
  rw [Heap.Distinct, he, List.map_append, List.nodup_append'] at hdist
  -- What the outer memory holds is live there, so it is no inner entry.
  have hout : ∀ e ∈ inner, e.address ∉ outer.stack.references ∧
      e.address ∉ outer.heap.references := by
    intro e hmem
    have hlive : ¬ (e.address ∈ outer.stack.references ∨ e.address ∈ outer.heap.references) := by
      intro hheld
      obtain ⟨x, hx, hxe⟩ := ho.exists_entry hheld
      exact hdist.2.2 (List.mem_map_of_mem hx) (hxe ▸ List.mem_map_of_mem hmem)
    tauto
  have hstack : m.stack.references = outer.stack.references := by
    rw [Stack.references, Stack.slots, hf]
    rfl
  -- A holder of an inner entry is an inner entry that was allocated later.
  have hnone : ∀ n, ∀ e ∈ inner, m.heap.nextSequence - e.sequence = n → False := by
    intro n
    induction n using Nat.strongRecOn with
    | ind n ih =>
        intro e hmem hn
        have hme : e ∈ m.heap.entries := by
          rw [he]
          exact List.mem_append_right _ hmem
        have hpos := hs.balanced.positive e hme
        rw [hs.refs_eq hme, hstack, List.count_eq_zero.2 (hout e hmem).1] at hpos
        have hheld : e.address ∈ m.heap.references := List.count_pos_iff.1 (by omega)
        obtain ⟨holder, hh, hr⟩ := List.mem_flatMap.1 hheld
        have hlater := hs.intact.downward holder hh e hme hr
        have hbelow := hs.intact.below holder hh
        rw [he] at hh
        rcases List.mem_append.1 hh with hh | hh
        · exact (hout e hmem).2 (List.mem_flatMap.2 ⟨holder, hh, hr⟩)
        · exact ih _ (by omega) holder hh rfl
  have hnil : inner = [] := List.eq_nil_iff_forall_not_mem.2 fun e hmem => hnone _ e hmem rfl
  rw [he, hnil, List.append_nil]

end Memory.Above

end StackHeap.Store
