import Mathlib.Data.List.Count
import Mathlib.Data.List.Nodup
import StackHeap.Store.Stack

/-! # The slots of the stack

Frames are found by number and slots by name, and a change goes to every frame and every slot that
matches.  On a well-formed stack (`Stack.WellFormed`) exactly one does, so that a change is seen in
one place of the list of all slots: `exists_slots_push` for a new slot, `exists_slots_write` for a
new value.  All counting over slots goes through these two. -/

namespace StackHeap.Store

/-- A change that no element asks for changes nothing. -/
theorem map_ite_eq_self {α : Type} {p : α → Prop} [DecidablePred p] {g : α → α} {l : List α}
    (h : ∀ y ∈ l, ¬ p y) : (l.map fun y => if p y then g y else y) = l :=
  (List.map_congr_left fun y hy => if_neg (h y hy)).trans (List.map_id _)

namespace Frame

variable {f : Frame} {name : String} {x : Slot}

theorem name_of_slot? (hx : f.slot? name = some x) : x.name = name := by
  simpa using List.find?_some hx

theorem mem_of_slot? (hx : f.slot? name = some x) : x ∈ f.slots := List.mem_of_find?_eq_some hx

theorem slot?_push (hx : f.slot? x.name = none) : (f.push x).slot? x.name = some x := by
  unfold slot? at hx ⊢
  simp [push, List.find?_append, hx]

/-- A write changes the variables of its name. -/
theorem slot?_write_map (f : Frame) (target : String) (v : Value) (name : String) :
    (f.write target v).slot? name =
      (f.slot? name).map fun y => if y.name = target then { y with value := v } else y := by
  have hp : ((fun y : Slot => decide (y.name = name)) ∘
      fun y => if y.name = target then { y with value := v } else y) =
      fun y => decide (y.name = name) := by
    funext y
    rw [Function.comp_apply]
    split <;> rfl
  unfold slot?
  rw [write, List.find?_map, hp]

theorem slot?_write (hx : f.slot? name = some x) (v : Value) :
    (f.write name v).slot? name = some { x with value := v } := by
  rw [slot?_write_map, hx, Option.map_some, if_pos (name_of_slot? hx)]

theorem slot?_write_of_ne {target : String} (hne : name ≠ target) (f : Frame) (v : Value) :
    (f.write target v).slot? name = f.slot? name := by
  rw [slot?_write_map]
  cases hx : f.slot? name with
  | none => rfl
  | some x => rw [Option.map_some, if_neg (by rwa [name_of_slot? hx])]

/-- Types stay. -/
theorem type_slot?_write (f : Frame) (target : String) (v : Value) (name : String) :
    ((f.write target v).slot? name).map Slot.type = (f.slot? name).map Slot.type := by
  rw [slot?_write_map, Option.map_map]
  congr 1
  funext y
  rw [Function.comp_apply]
  split <;> rfl

/-- Writes of different variables commute. -/
theorem write_comm {target : String} (hne : name ≠ target) (f : Frame) (v w : Value) :
    (f.write name v).write target w = (f.write target w).write name v := by
  unfold write
  simp only [List.map_map]
  congr 1
  refine List.map_congr_left fun y _ => ?_
  simp only [Function.comp_apply]
  by_cases hn : y.name = name
  · have ht : y.name ≠ target := fun ht => hne (hn.symm.trans ht)
    rw [if_pos hn, if_neg ht, if_neg ht, if_pos hn]
  · rw [if_neg hn]
    split <;> rfl

/-- With distinct names, a write changes one slot. -/
theorem exists_slots_write (hn : (f.slots.map Slot.name).Nodup) (hx : f.slot? name = some x)
    (v : Value) : ∃ l r, f.slots = l ++ x :: r ∧
      (f.write name v).slots = l ++ { x with value := v } :: r := by
  obtain ⟨l, r, hs⟩ := List.append_of_mem (mem_of_slot? hx)
  have hname := name_of_slot? hx
  rw [hs, List.map_append, List.map_cons, List.nodup_append'] at hn
  obtain ⟨-, hr, hlr⟩ := hn
  refine ⟨l, r, hs, ?_⟩
  show f.slots.map _ = _
  rw [hs, List.map_append, List.map_cons, if_pos hname, map_ite_eq_self (l := l),
    map_ite_eq_self (l := r)]
  · intro y hy hyn
    apply (List.nodup_cons.1 hr).1
    rw [hname, ← hyn]
    exact List.mem_map_of_mem hy
  · intro y hy hyn
    exact hlr (List.mem_map_of_mem hy) (by rw [hyn, ← hname]; exact List.mem_cons_self)

@[simp] theorem names_write (f : Frame) (name : String) (v : Value) :
    (f.write name v).slots.map Slot.name = f.slots.map Slot.name := by
  rw [write, List.map_map]
  refine List.map_congr_left fun y _ => ?_
  rw [Function.comp_apply]
  split <;> rfl

theorem not_mem_names_of_slot? (hx : f.slot? name = none) : name ∉ f.slots.map Slot.name := by
  intro hm
  obtain ⟨y, hy, hyn⟩ := List.mem_map.1 hm
  have hne := List.find?_eq_none.1 hx y hy
  exact hne (by simpa using hyn)

end Frame

namespace Stack

variable {s : Stack} {id : Nat} {f : Frame} {name : String} {x : Slot}

/-- The numbers of the frames, the oldest first. -/
def ids (s : Stack) : List Nat := s.frames.map Frame.id

/-- Frames have growing numbers that were handed out, and slots of a frame have distinct names. -/
structure WellFormed (s : Stack) : Prop where
  ids : (s.frames.map Frame.id).Pairwise (· < ·)
  below : ∀ f ∈ s.frames, f.id < s.nextId
  names : ∀ f ∈ s.frames, (f.slots.map Slot.name).Nodup

theorem frames_update (s : Stack) (id : Nat) (g : Frame → Frame) :
    (s.update id g).frames = s.frames.map fun f => if f.id = id then g f else f := rfl

theorem mem_of_frame? (hf : s.frame? id = some f) : f ∈ s.frames := List.mem_of_find?_eq_some hf

theorem id_of_frame? (hf : s.frame? id = some f) : f.id = id := by simpa using List.find?_some hf

theorem nextId_of_pop? {t : Stack} (hp : s.pop? = some (f, t)) : t.nextId = s.nextId := by
  obtain ⟨g, -, he⟩ := Option.map_eq_some_iff.1 hp
  obtain ⟨rfl, rfl⟩ := Prod.mk.inj he
  rfl

theorem root_of_pop? {t : Stack} (hp : s.pop? = some (f, t)) : t.root = s.root := by
  obtain ⟨g, -, he⟩ := Option.map_eq_some_iff.1 hp
  obtain ⟨rfl, rfl⟩ := Prod.mk.inj he
  rfl

theorem mem_frames_of_pop? {t : Stack} (hp : s.pop? = some (f, t)) {g : Frame} (hg : g ∈ t.frames) :
    g ∈ s.frames := by
  rw [frames_of_pop? hp]
  exact List.mem_append_left _ hg

theorem mem_slots_of_slot? (hf : s.frame? id = some f) (hx : f.slot? name = some x) :
    x ∈ s.slots := List.mem_flatMap.2 ⟨f, mem_of_frame? hf, Frame.mem_of_slot? hx⟩

section Update

variable {g : Frame → Frame}

theorem frame?_update (hg : ∀ f, (g f).id = f.id) (hf : s.frame? id = some f) :
    (s.update id g).frame? id = some (g f) := by
  have hid := id_of_frame? hf
  have hp : ((fun f : Frame => decide (f.id = id)) ∘ fun f => if f.id = id then g f else f) =
      fun f => decide (f.id = id) := by
    funext f
    rw [Function.comp_apply]
    split
    · rw [hg]
    · rfl
  unfold frame? at hf ⊢
  rw [frames_update, List.find?_map, hp, hf, Option.map_some, if_pos hid]

theorem id_current_update (hg : ∀ f, (g f).id = f.id) (s : Stack) (id : Nat) :
    (s.update id g).current.id = s.current.id := by
  have hchange : ∀ f : Frame, (if f.id = id then g f else f).id = f.id := by
    intro f
    split
    · exact hg f
    · rfl
  unfold current update
  dsimp only
  rw [List.getLast?_map]
  cases s.above.getLast? with
  | none => exact hchange s.root
  | some f => exact hchange f

end Update

namespace WellFormed

theorem nodup_ids (hs : s.WellFormed) : s.ids.Nodup := hs.ids.imp Nat.ne_of_lt

/-- Frames of one number are one frame. -/
theorem eq_of_id {g : Frame} (hs : s.WellFormed) (hf : f ∈ s.frames) (hg : g ∈ s.frames)
    (hid : g.id = f.id) : g = f :=
  List.inj_on_of_nodup_map hs.nodup_ids hg hf hid

/-- A change to the frame of a number is made at one place. -/
theorem exists_frames_update (hs : s.WellFormed) (hf : s.frame? id = some f) (g : Frame → Frame) :
    ∃ l r, s.frames = l ++ f :: r ∧ (s.update id g).frames = l ++ g f :: r := by
  obtain ⟨l, r, hl⟩ := List.append_of_mem (mem_of_frame? hf)
  have hid := id_of_frame? hf
  have hp := hs.ids
  rw [hl, List.map_append, List.map_cons, List.pairwise_append, List.pairwise_cons] at hp
  obtain ⟨-, ⟨hr, -⟩, hlr⟩ := hp
  refine ⟨l, r, hl, ?_⟩
  rw [frames_update, hl, List.map_append, List.map_cons, if_pos hid, map_ite_eq_self (l := l),
    map_ite_eq_self (l := r)]
  · intro y hy hyid
    have := hr y.id (List.mem_map_of_mem hy)
    omega
  · intro y hy hyid
    have := hlr y.id (List.mem_map_of_mem hy) f.id List.mem_cons_self
    omega

/-- A new slot is a new place among all slots. -/
theorem exists_slots_push (hs : s.WellFormed) (hf : s.frame? id = some f) (x : Slot) :
    ∃ l r, s.slots = l ++ r ∧ (s.update id (·.push x)).slots = l ++ x :: r := by
  obtain ⟨l, r, hl, hu⟩ := hs.exists_frames_update hf (·.push x)
  refine ⟨l.flatMap (·.slots) ++ f.slots, r.flatMap (·.slots), ?_, ?_⟩
  · rw [slots, hl, List.flatMap_append, List.flatMap_cons, List.append_assoc]
  · rw [slots, hu, List.flatMap_append, List.flatMap_cons, Frame.push]
    simp only [List.append_assoc, List.cons_append, List.nil_append]

/-- A new value is a change at one place among all slots. -/
theorem exists_slots_write (hs : s.WellFormed) (hf : s.frame? id = some f)
    (hx : f.slot? name = some x) (v : Value) :
    ∃ l r, s.slots = l ++ x :: r ∧
      (s.update id (·.write name v)).slots = l ++ { x with value := v } :: r := by
  obtain ⟨l, r, hl, hu⟩ := hs.exists_frames_update hf (·.write name v)
  obtain ⟨l', r', hl', hw⟩ := Frame.exists_slots_write (hs.names f (mem_of_frame? hf)) hx v
  refine ⟨l.flatMap (·.slots) ++ l', r' ++ r.flatMap (·.slots), ?_, ?_⟩
  · rw [slots, hl, List.flatMap_append, List.flatMap_cons, hl']
    simp only [List.append_assoc, List.cons_append]
  · rw [slots, hu, List.flatMap_append, List.flatMap_cons, hw]
    simp only [List.append_assoc, List.cons_append]

theorem mem_slots_push (hs : s.WellFormed) (hf : s.frame? id = some f) {x y : Slot}
    (hy : y ∈ (s.update id (·.push x)).slots) : y ∈ s.slots ∨ y = x := by
  obtain ⟨l, r, hl, hu⟩ := hs.exists_slots_push hf x
  rw [hu, List.mem_append, List.mem_cons] at hy
  rw [hl, List.mem_append]
  tauto

theorem mem_slots_write (hs : s.WellFormed) (hf : s.frame? id = some f)
    (hx : f.slot? name = some x) {v : Value} {y : Slot}
    (hy : y ∈ (s.update id (·.write name v)).slots) : y ∈ s.slots ∨ y = { x with value := v } := by
  obtain ⟨l, r, hl, hu⟩ := hs.exists_slots_write hf hx v
  rw [hu, List.mem_append, List.mem_cons] at hy
  rw [hl, List.mem_append, List.mem_cons]
  tauto

theorem update (hs : s.WellFormed) (hf : s.frame? id = some f) {g : Frame → Frame}
    (hg : (g f).id = f.id) (hn : ((g f).slots.map Slot.name).Nodup) :
    (s.update id g).WellFormed := by
  obtain ⟨l, r, hl, hu⟩ := hs.exists_frames_update hf g
  refine ⟨?_, ?_, ?_⟩
  · have hi := hs.ids
    rw [hl, List.map_append, List.map_cons] at hi
    rw [hu, List.map_append, List.map_cons, hg]
    exact hi
  · intro y hy
    rw [hu] at hy
    rcases List.mem_append.1 hy with hy | hy
    · exact hs.below y (by rw [hl]; exact List.mem_append_left _ hy)
    · rcases List.mem_cons.1 hy with rfl | hy
      · rw [hg]
        exact hs.below f (mem_of_frame? hf)
      · exact hs.below y (by rw [hl]; exact List.mem_append_right _ (List.mem_cons_of_mem _ hy))
  · intro y hy
    rw [hu] at hy
    rcases List.mem_append.1 hy with hy | hy
    · exact hs.names y (by rw [hl]; exact List.mem_append_left _ hy)
    · rcases List.mem_cons.1 hy with rfl | hy
      · exact hn
      · exact hs.names y (by rw [hl]; exact List.mem_append_right _ (List.mem_cons_of_mem _ hy))

theorem declare (hs : s.WellFormed) (hf : s.frame? id = some f) (hx : f.slot? x.name = none) :
    (s.update id (·.push x)).WellFormed := by
  apply hs.update hf rfl
  rw [Frame.push, List.map_append, List.nodup_append']
  refine ⟨hs.names f (mem_of_frame? hf), List.nodup_singleton _, ?_⟩
  intro n hn hnx
  obtain rfl : n = x.name := List.mem_singleton.1 hnx
  exact Frame.not_mem_names_of_slot? hx hn

theorem write (hs : s.WellFormed) (hf : s.frame? id = some f) (name : String) (v : Value) :
    (s.update id (·.write name v)).WellFormed := by
  apply hs.update hf rfl
  rw [Frame.names_write]
  exact hs.names f (mem_of_frame? hf)

theorem new (rootName : String) : (Stack.new rootName).WellFormed where
  ids := List.pairwise_singleton _ _
  below f hf := by
    rw [List.mem_singleton.1 hf]
    exact Nat.one_pos
  names f hf := by
    rw [List.mem_singleton.1 hf]
    exact List.nodup_nil

theorem push (hs : s.WellFormed) (name : String) : (s.push name).WellFormed where
  ids := by
    rw [frames_push, List.map_append, List.pairwise_append]
    refine ⟨hs.ids, List.pairwise_singleton _ _, ?_⟩
    intro i hi j hj
    obtain ⟨f, hf, rfl⟩ := List.mem_map.1 hi
    rw [List.mem_singleton.1 hj]
    exact hs.below f hf
  below f hf := by
    rw [frames_push] at hf
    rcases List.mem_append.1 hf with hf | hf
    · exact Nat.lt_succ_of_lt (hs.below f hf)
    · rw [List.mem_singleton.1 hf]
      exact Nat.lt_succ_self _
  names f hf := by
    rw [frames_push] at hf
    rcases List.mem_append.1 hf with hf | hf
    · exact hs.names f hf
    · rw [List.mem_singleton.1 hf]
      exact List.nodup_nil

theorem pop {t : Stack} (hs : s.WellFormed) (hp : s.pop? = some (f, t)) : t.WellFormed where
  ids := by
    have hi := hs.ids
    rw [frames_of_pop? hp, List.map_append] at hi
    exact (List.pairwise_append.1 hi).1
  below g hg := by
    rw [nextId_of_pop? hp]
    exact hs.below g (mem_frames_of_pop? hp hg)
  names g hg := hs.names g (mem_frames_of_pop? hp hg)

end WellFormed

@[simp] theorem slots_push (s : Stack) (name : String) : (s.push name).slots = s.slots := by
  rw [slots, frames_push, List.flatMap_append]
  exact List.append_nil _

theorem slots_of_pop? {t : Stack} (hp : s.pop? = some (f, t)) : s.slots = t.slots ++ f.slots := by
  rw [slots, frames_of_pop? hp, List.flatMap_append, List.flatMap_singleton]
  rfl

/-! ### References -/

/-- The addresses that slots hold, once for each holder. -/
def references (s : Stack) : List Address := s.slots.filterMap (·.value.referent?)

/-- One slot more holds what its value holds. -/
theorem count_references_insert (l r : List Slot) (x : Slot) (a : Address) :
    ((l ++ x :: r).filterMap (·.value.referent?)).count a =
      ((l ++ r).filterMap (·.value.referent?)).count a + x.value.referent?.toList.count a := by
  simp only [List.filterMap_append, List.filterMap_cons, List.count_append]
  cases x.value.referent? with
  | none =>
      rw [Option.toList_none, List.count_nil]
      rfl
  | some b =>
      rw [Option.toList_some, List.count_singleton, List.count_cons]
      omega

theorem references_of_pop? {t : Stack} (hp : s.pop? = some (f, t)) :
    s.references = t.references ++ f.references := by
  rw [references, slots_of_pop? hp, List.filterMap_append]
  rfl

theorem mem_references_of_slot? {a : Address} (hf : s.frame? id = some f)
    (hx : f.slot? name = some x) (ha : x.value.referent? = some a) : a ∈ s.references :=
  List.mem_filterMap.2 ⟨x, mem_slots_of_slot? hf hx, ha⟩

end Stack

end StackHeap.Store
