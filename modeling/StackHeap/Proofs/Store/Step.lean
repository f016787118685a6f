import Mathlib.Data.List.Forall2
import StackHeap.Proofs.Store.Operation
import StackHeap.Proofs.Store.Sound
import StackHeap.Proofs.Value

/-! # What an operation does

`Step m op answer m'` says in full what carrying out an operation does: the conditions that were
checked, the answer, and the memory afterwards as moves from the memory before.  Everything that
holds of all operations is proved by cases on it, first of all that a step leads from a sound
memory to a sound one (`Step.sound`). -/

namespace StackHeap.Store

open Number

/-- What an element of an array declaration yields: its value, or a copy of a variable. -/
inductive ElementYields (f : Frame) (type : DeclaredType) : Element → Value → Prop where
  | value (v : Value) : ElementYields f type (.value v) v
  | copy {source : String} {x : Slot} (hx : f.slot? source = some x)
      (ha : type.accepts x.type = true) :
      ElementYields f type (.variable source) (x.valueAs type)

/-- A variable `name` that showed `old` shows `value`: nothing happens if they are the same, and
otherwise the old entry is released and `taken` is retained. -/
inductive Rebound (m : Memory) (id : Nat) (name : String) (old value : Value)
    (taken : List Address) : List Entry → Memory → Prop where
  | same (he : old = value) : Rebound m id name old value taken [] m
  | changed {collected : List Entry} {h : Heap} (hne : old ≠ value)
      (hr : m.heap.releaseAll old.referent?.toList = .ok collected h) :
      Rebound m id name old value taken collected
        ({ m with heap := h.retained taken }.written id name value)

/-- What carrying out an operation does to a memory. -/
inductive Step (m : Memory) : Operation → Answer → Memory → Prop where
  | declareScalar {id : Nat} {name : String} {type : Primitive} {value : Value} {f : Frame}
      (hf : m.stack.frame? id = some f) (hn : f.slot? name = none)
      (hv : value.isReference = false) :
      Step m (.declareScalar id name type value) (.address m.addresses.next)
        (m.declared id name (.primitive type) (value.widen type))
  | declareNull {id : Nat} {name : String} {type : DeclaredType} {f : Frame}
      (hf : m.stack.frame? id = some f) (hn : f.slot? name = none)
      (ht : type.isReference = true) :
      Step m (.declareNull id name type) (.address m.addresses.next)
        (m.declared id name type .null)
  | declareObject {id : Nat} {name category : String} {fields : List Field} {f : Frame}
      (hf : m.stack.frame? id = some f) (hn : f.slot? name = none)
      (hr : m.heap.hasRoom 1 = true) (hg : m.heap.get? m.addresses.next = none) :
      Step m (.declareObject id name category fields) (.address m.addresses.next)
        ((m.allocated (.object category) (.object fields)).declared id name (.object category)
          (.objectRef m.addresses.next))
  | declareArray {id : Nat} {name : String} {type : DeclaredType} {elements : List Element}
      {values : List Value} {f : Frame}
      (hf : m.stack.frame? id = some f) (hn : f.slot? name = none)
      (hr : m.heap.hasRoom 1 = true) (hg : m.heap.get? m.addresses.next = none)
      (hv : List.Forall₂ (ElementYields f type) elements values) :
      Step m (.declareArray id name type elements) (.address m.addresses.next)
        (((m.retained (values.filterMap Value.referent?)).allocated (.array type)
          (.array values)).declared id name (.array type) (.arrayRef m.addresses.next))
  | declareCopy {id : Nat} {name source : String} {type : DeclaredType} {f : Frame} {x : Slot}
      (hf : m.stack.frame? id = some f) (hn : f.slot? name = none)
      (hx : f.slot? source = some x) (ha : type.accepts x.type = true) :
      Step m (.declareCopy id name type source) (.address m.addresses.next)
        ((m.retained (x.valueAs type).referent?.toList).declared id name type (x.valueAs type))
  | assignValue {id : Nat} {target source : String} {f : Frame} {t x : Slot}
      (hf : m.stack.frame? id = some f) (ht : f.slot? target = some t)
      (hx : f.slot? source = some x) (ha : t.type.accepts x.type = true)
      (hp : t.type.isReference = false) :
      Step m (.assign id target source) (.collected []) (m.written id target (x.valueAs t.type))
  | assignReference {id : Nat} {target source : String} {f : Frame} {t x : Slot}
      {collected : List Entry} {m' : Memory}
      (hf : m.stack.frame? id = some f) (ht : f.slot? target = some t)
      (hx : f.slot? source = some x) (ha : t.type.accepts x.type = true)
      (hp : t.type.isReference = true)
      (hr : Rebound m id target t.value x.value x.value.referent?.toList collected m') :
      Step m (.assign id target source) (.collected collected) m'
  | assignLiteral {id : Nat} {target : String} {source p : Primitive} {value : Value} {f : Frame}
      {t : Slot} (hf : m.stack.frame? id = some f) (ht : f.slot? target = some t)
      (hp : t.type = .primitive p) (ha : p.accepts source = true)
      (hv : value.isReference = false) :
      Step m (.assignLiteral id target source value) .done (m.written id target (value.widen p))
  | assignNull {id : Nat} {target : String} {f : Frame} {t : Slot} {collected : List Entry}
      {m' : Memory} (hf : m.stack.frame? id = some f) (ht : f.slot? target = some t)
      (hp : t.type.isReference = true)
      (hr : Rebound m id target t.value .null [] collected m') :
      Step m (.assignNull id target) (.collected collected) m'
  | assignNew {id : Nat} {target category : String} {fields : List Field} {f : Frame} {t : Slot}
      {collected : List Entry} {m' : Memory}
      (hf : m.stack.frame? id = some f) (ht : f.slot? target = some t)
      (hp : t.type = .object category)
      (hroom : m.heap.hasRoom 1 = true) (hg : m.heap.get? m.addresses.next = none)
      (hr : Rebound (m.allocated (.object category) (.object fields)) id target t.value
        (.objectRef m.addresses.next) [] collected m') :
      Step m (.assignNew id target category fields) (.address m.addresses.next) m'
  | enter {name : String} (hd : m.stack.depth < m.maxFrames) :
      Step m (.enter name) (.entered m.stack.nextId) { m with stack := m.stack.push name }
  | leave {f : Frame} {t : Stack} {collected : List Entry} {h : Heap}
      (hp : m.stack.pop? = some (f, t))
      (hr : m.heap.releaseAll f.references = .ok collected h) :
      Step m .leave (.left f collected) { m with stack := t, heap := h }

/-! ### Soundness -/

section Soundness

variable {m m' : Memory} {held taken : List Address} {id : Nat} {name : String} {f : Frame}
  {x : Slot} {v : Value}

/-- A variable whose value changes is no longer among the holders that make it live. -/
theorem exists_other_holder (hf : m.stack.frame? id = some f) {source : String}
    (hx : f.slot? source = some x) {t : Slot} (hne : t.value ≠ x.value) :
    ∀ a ∈ x.value.referent?.toList, ∃ y ∈ m.stack.slots, y ≠ t ∧ y.value.referent? = some a := by
  intro a ha
  refine ⟨x, Stack.mem_slots_of_slot? hf hx, ?_, Option.mem_toList.1 ha⟩
  rintro rfl
  exact hne rfl

theorem Rebound.sound {collected : List Entry} (hs : m.Sound held)
    (hf : m.stack.frame? id = some f) (hx : f.slot? name = some x)
    (hk : x.type.isReference = v.isReference) (hv : v.referent?.toList = taken ++ held)
    (ht : x.value ≠ v →
      ∀ a ∈ taken, ∃ y ∈ m.stack.slots, y ≠ x ∧ y.value.referent? = some a)
    (hsame : x.value = v → held = [])
    (hr : Rebound m id name x.value v taken collected m') : m'.Sound [] := by
  cases hr with
  | same he =>
      rw [← hsame he]
      exact hs
  | changed hne hr =>
      obtain ⟨_, _, hr', -, -, hs'⟩ := hs.rebound hf hx hk hv (ht hne)
      rw [hr] at hr'
      cases hr'
      exact hs'

/-- Values in place come and go without the heap. -/
theorem Memory.Sound.overwritten (hs : m.Sound []) (hf : m.stack.frame? id = some f)
    (hx : f.slot? name = some x) (hp : x.type.isReference = false) (hv : v.isReference = false) :
    (m.written id name v).Sound [] := by
  have hold : x.value.referent? = none := by
    refine Value.referent?_eq_none ?_
    rw [← hs.fitting x (Stack.mem_slots_of_slot? hf hx), hp]
  have hin : m.Sound (v.referent?.toList ++ []) := by
    rw [Value.referent?_eq_none hv]
    exact hs
  have hw := hin.written hf hx (hp.trans hv.symm)
  rw [hold] at hw
  exact hw

theorem references_object {fields : List Field}
    (ha : ∀ v ∈ fields.map (·.value), v.referent? = none) :
    (Contents.object fields).references = [] := List.filterMap_eq_nil_iff.2 ha

/-- The references of an object are in hand, as there are none. -/
theorem Memory.Sound.object_references {fields : List Field} (hs : m.Sound [])
    (ha : ∀ v ∈ fields.map (·.value), v.referent? = none) :
    m.Sound ((Contents.object fields).references ++ []) := by
  rw [references_object ha]
  exact hs

/-- A new object is in hand. -/
theorem Memory.Sound.object {category : String} {fields : List Field} (hs : m.Sound [])
    (hg : m.heap.get? m.addresses.next = none)
    (ha : ∀ v ∈ fields.map (·.value), v.referent? = none) :
    (m.allocated (.object category) (.object fields)).Sound [m.addresses.next] :=
  (hs.object_references ha).allocated hg fun _ _ => references_object ha

theorem exists_mem_of_forall₂ {α β : Type} {R : α → β → Prop} {l : List α} {r : List β}
    (h : List.Forall₂ R l r) {b : β} (hb : b ∈ r) : ∃ a ∈ l, R a b := by
  induction h with
  | nil => exact absurd hb List.not_mem_nil
  | cons hab _ ih =>
      rcases List.mem_cons.1 hb with rfl | hb
      · exact ⟨_, List.mem_cons_self, hab⟩
      · obtain ⟨a, ha, hr⟩ := ih hb
        exact ⟨a, List.mem_cons_of_mem _ ha, hr⟩

/-- What a copy of a variable holds is live. -/
theorem Memory.Sound.isSome_get?_valueAs (hs : m.Sound held) (hf : m.stack.frame? id = some f)
    (hx : f.slot? name = some x) (type : DeclaredType) :
    ∀ a ∈ (x.valueAs type).referent?.toList, (m.heap.get? a).isSome := by
  intro a ha
  rw [Slot.referent?_valueAs] at ha
  have hmem := Stack.mem_references_of_slot? hf hx (Option.mem_toList.1 ha)
  exact hs.isSome_get? (List.mem_append_left _ hmem)

/-- What the elements of an array yield is live. -/
theorem isSome_get?_of_elementYields {type : DeclaredType} {elements : List Element}
    {values : List Value} (hs : m.Sound held) (hf : m.stack.frame? id = some f)
    (ha : (Operation.declareArray id name type elements).AddressFree)
    (hv : List.Forall₂ (ElementYields f type) elements values) :
    ∀ a ∈ values.filterMap Value.referent?, (m.heap.get? a).isSome := by
  intro a hmem
  obtain ⟨v, hvs, hva⟩ := List.mem_filterMap.1 hmem
  obtain ⟨e, he, hy⟩ := exists_mem_of_forall₂ hv hvs
  cases hy with
  | value v =>
      have hn : v.referent? = none := ha v (List.mem_filterMap.2 ⟨_, he, rfl⟩)
      rw [hn] at hva
      cases hva
  | copy hx _ => exact hs.isSome_get?_valueAs hf hx type a (Option.mem_toList.2 hva)

/-- **A step keeps the memory sound** if the values passed in hold no address. -/
theorem Step.sound {op : Operation} {answer : Answer} (hs : m.Sound [])
    (hfree : op.AddressFree) (h : Step m op answer m') : m'.Sound [] := by
  cases h with
  | declareScalar hf hn hv =>
      refine Memory.Sound.declared ?_ hf hn (by rw [Value.isReference_widen, hv]; rfl)
      rw [Value.referent?_widen, Value.referent?_eq_none hv]
      exact hs
  | declareNull hf hn ht => exact hs.declared hf hn ht
  | declareObject hf hn hr hg => exact (hs.object hg hfree).declared hf hn rfl
  | @declareArray _ _ _ _ values _ hf hn hr hg hv =>
      have hlive := isSome_get?_of_elementYields hs hf hfree hv
      have hnone := Heap.get?_retained_eq_none hg (values.filterMap Value.referent?)
      refine Memory.Sound.declared ((hs.retained hlive).allocated hnone ?_) hf hn rfl
      exact fun fields he => by cases he
  | declareCopy hf hn hx ha =>
      have hfit := hs.fitting _ (Stack.mem_slots_of_slot? hf hx)
      have hk := DeclaredType.isReference_eq_of_accepts ha
      refine (hs.retained (hs.isSome_get?_valueAs hf hx _)).declared hf hn ?_
      rw [Slot.isReference_valueAs, ← hfit, hk]
  | assignValue hf ht hx ha hp =>
      have hfit := hs.fitting _ (Stack.mem_slots_of_slot? hf hx)
      have hk := DeclaredType.isReference_eq_of_accepts ha
      apply hs.overwritten hf ht hp
      rw [Slot.isReference_valueAs, ← hfit, ← hk, hp]
  | assignReference hf ht hx ha hp hr =>
      have hfit := hs.fitting _ (Stack.mem_slots_of_slot? hf hx)
      have hk := DeclaredType.isReference_eq_of_accepts ha
      exact hr.sound hs hf ht (hk.trans hfit) (List.append_nil _).symm
        (exists_other_holder hf hx) fun _ => rfl
  | assignLiteral hf ht hp ha hv =>
      apply hs.overwritten hf ht (by rw [hp]; rfl)
      rw [Value.isReference_widen, hv]
  | assignNull hf ht hp hr =>
      exact hr.sound (v := .null) hs hf ht hp rfl (fun _ a ha => absurd ha List.not_mem_nil)
        fun _ => rfl
  | assignNew hf ht hp hroom hg hr =>
      refine hr.sound (hs.object hg hfree) hf ht (by rw [hp]; rfl) rfl
        (fun _ a ha => absurd ha List.not_mem_nil) fun he => ?_
      -- A variable that shows the new object already would hold a live address.
      have hmem := Stack.mem_references_of_slot? hf ht (by rw [he]; rfl)
      have hlive := hs.isSome_get? (List.mem_append_left _ hmem)
      rw [hg] at hlive
      cases hlive
  | enter hd => exact hs.push _
  | leave hp hr =>
      have hpop := hs.pop hp
      obtain ⟨_, _, hr', hb, hrel⟩ := Heap.releaseAll_spec (hpop.balanced.congr fun a => by
        rw [List.append_nil])
      rw [hr] at hr'
      cases hr'
      exact ⟨hpop.stack, hpop.fitting, hb, hpop.intact.kept hrel.toKept⟩

end Soundness

end StackHeap.Store
