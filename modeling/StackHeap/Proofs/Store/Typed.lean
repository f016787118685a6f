import StackHeap.Proofs.Store.Outcome
import StackHeap.Proofs.Typing.Checked

/-! # A well-typed store

`Memory.Typed` says that every place holds what its type admits.  For references this is said of the
entry at the address *if there is one* (`Heap.Admits`); that there is one is part of soundness.  In
this form it survives the collection of entries, so a step keeps it move by move, given that the
values passed in are of their types (`Operation.WellTyped`, `Step.typed`).

In a sound memory it amounts to the full statement, `Heap.Conforms`, in which every reference leads
to a live entry of exactly the type of its place (`Memory.Typed.conforms`). -/

namespace StackHeap

open Number Typing

namespace DeclaredType

/-- The types that are no arrays. -/
def IsBasic : DeclaredType → Prop
  | array _ => False
  | _ => True

/-- The types that are no arrays of arrays. -/
def IsFlat : DeclaredType → Prop
  | array element => element.IsBasic
  | _ => True

theorem isBasic_ofName (name : String) : (ofName name).IsBasic := by
  unfold ofName
  cases Primitive.ofName? name <;> trivial

theorem IsBasic.isFlat {t : DeclaredType} (h : t.IsBasic) : t.IsFlat := by
  cases t with
  | array element => exact h.elim
  | _ => trivial

/-- A type of references accepts only itself. -/
theorem eq_of_accepts {t s : DeclaredType} (ha : t.accepts s = true) (ht : t.isReference = true) :
    t = s := by
  cases t with
  | primitive p => cases ht
  | object category =>
      cases s with
      | object category' => rw [of_decide_eq_true ha]
      | _ => cases ha
  | array element =>
      cases s with
      | array element' => rw [of_decide_eq_true ha]
      | _ => cases ha

end DeclaredType

namespace Store

/-! ### Types of operations -/

/-- What is passed to an operation is of the types that are passed along. -/
def Operation.WellTyped : Operation → Prop
  | declareScalar _ _ type value => type.Holds value
  | declareNull _ _ type => type.IsBasic
  | declareObject _ _ _ fields => ProperFields fields
  | declareArray _ _ type elements => type.IsBasic ∧ ProperElements type elements
  | declareCopy _ _ type _ => type.IsBasic
  | assignLiteral _ _ source value => source.Holds value
  | assignNew _ _ _ fields => ProperFields fields
  | _ => True

/-- Typed values hold no addresses. -/
theorem Operation.WellTyped.addressFree {op : Operation} (h : op.WellTyped) : op.AddressFree := by
  cases op with
  | declareScalar id name type value =>
      intro v hv
      rw [List.mem_singleton.1 hv]
      exact Value.referent?_eq_none (Primitive.Holds.isReference_eq_false h)
  | declareObject id name category fields => exact ProperFields.addressFree h
  | declareArray id name type elements =>
      intro v hv
      obtain ⟨e, he, hev⟩ := List.mem_filterMap.1 hv
      cases e with
      | value w =>
          cases hev
          exact (h.2.written v he).referent?_eq_none
      | «variable» source => cases hev
  | assignLiteral id target source value =>
      intro v hv
      rw [List.mem_singleton.1 hv]
      exact Value.referent?_eq_none (Primitive.Holds.isReference_eq_false h)
  | assignNew id target category fields => exact ProperFields.addressFree h
  | _ => exact fun v hv => absurd hv List.not_mem_nil

/-! ### Typed places -/

/-- What a place of a type may hold: a reference leads to no live entry of another type. -/
def Heap.Admits (h : Heap) : DeclaredType → Value → Prop
  | .primitive p, v => p.Holds v
  | _, .null => True
  | .object category, .objectRef a => ∀ e ∈ h.entries, e.address = a → e.type = .object category
  | .array element, .arrayRef a => ∀ e ∈ h.entries, e.address = a → e.type = .array element
  | _, _ => False

/-- What an entry of a heap may be. -/
inductive Heap.EntryTyped (h : Heap) : DeclaredType → Contents → Prop where
  | object {category : String} {fields : List Field} (hf : ProperFields fields) :
      EntryTyped h (.object category) (.object fields)
  | array {element : DeclaredType} {values : List Value} (hb : element.IsBasic)
      (hne : values ≠ []) (hv : ∀ v ∈ values, h.Admits element v) :
      EntryTyped h (.array element) (.array values)

/-- Every place of the memory holds what its type admits. -/
structure Memory.Typed (m : Memory) : Prop where
  flat : ∀ x ∈ m.stack.slots, x.type.IsFlat
  slots : ∀ x ∈ m.stack.slots, m.heap.Admits x.type x.value
  entries : ∀ e ∈ m.heap.entries, m.heap.EntryTyped e.type e.contents

namespace Heap

variable {h h' : Heap} {type : DeclaredType} {v : Value}

/-- What is said of the type at an address carries over to entries of the same types. -/
theorem type_mono {a : Address}
    (hh : ∀ e' ∈ h'.entries, some a = some e'.address →
      ∃ e ∈ h.entries, e.address = e'.address ∧ e.type = e'.type)
    (ht : ∀ e ∈ h.entries, e.address = a → e.type = type) :
    ∀ e' ∈ h'.entries, e'.address = a → e'.type = type := by
  intro e' he' hea
  obtain ⟨e, he, hadr, hty⟩ := hh e' he' (congrArg some hea.symm)
  rw [← hty]
  exact ht e he (hadr.trans hea)

/-- Admission looks at the types of entries only. -/
theorem Admits.mono (hh : ∀ e' ∈ h'.entries, v.referent? = some e'.address →
      ∃ e ∈ h.entries, e.address = e'.address ∧ e.type = e'.type)
    (ha : h.Admits type v) : h'.Admits type v := by
  cases type with
  | primitive p => exact ha
  | object category =>
      cases v with
      | null => trivial
      | objectRef a => exact type_mono hh ha
      | _ => exact ha.elim
  | array element =>
      cases v with
      | null => trivial
      | arrayRef a => exact type_mono hh ha
      | _ => exact ha.elim

theorem Admits.kept (ha : h.Admits type v) (hk : h.Kept h') : h'.Admits type v :=
  ha.mono fun e' he' _ => by
    obtain ⟨n, hn⟩ := hk.exists_mem he'
    exact ⟨_, hn, rfl, rfl⟩

theorem Admits.appended {e : Entry} (ha : h.Admits type v) (hne : v.referent? ≠ some e.address) :
    (h.appended e).Admits type v :=
  ha.mono fun e' he' hv => by
    rcases List.mem_append.1 he' with he' | he'
    · exact ⟨e', he', rfl, rfl⟩
    · rw [List.mem_singleton.1 he'] at hv
      exact absurd hv hne

theorem EntryTyped.kept {c : Contents} (he : h.EntryTyped type c) (hk : h.Kept h') :
    h'.EntryTyped type c := by
  cases he with
  | object hf => exact .object hf
  | array hb hne hv => exact .array hb hne fun v hvs => (hv v hvs).kept hk

theorem EntryTyped.appended {c : Contents} {e : Entry} (he : h.EntryTyped type c)
    (hne : e.address ∉ c.references) : (h.appended e).EntryTyped type c := by
  cases he with
  | object hf => exact .object hf
  | array hb hnil hv =>
      refine .array hb hnil fun v hvs => (hv v hvs).appended fun hva => hne ?_
      exact List.mem_filterMap.2 ⟨v, hvs, hva⟩

end Heap

/-- A copy of a variable is admitted where the variable's type is accepted. -/
theorem Heap.Admits.valueAs {h : Heap} {type : DeclaredType} {x : Slot}
    (ha : type.accepts x.type = true) (hx : h.Admits x.type x.value) :
    h.Admits type (x.valueAs type) := by
  cases type with
  | primitive p =>
      cases hxt : x.type with
      | primitive q =>
          rw [hxt] at ha hx
          exact Primitive.Holds.widen ha hx
      | object category =>
          rw [hxt] at ha
          cases ha
      | array element =>
          rw [hxt] at ha
          cases ha
  | object category =>
      rw [← DeclaredType.eq_of_accepts ha rfl] at hx
      exact hx
  | array element =>
      rw [← DeclaredType.eq_of_accepts ha rfl] at hx
      exact hx

theorem Heap.Admits.written {h : Heap} {type : DeclaredType} {v : Value} (hw : WrittenFor type v) :
    h.Admits type v := by
  cases type with
  | primitive p => exact hw
  | object category => rw [show v = .null from hw]; trivial
  | array element => rw [show v = .null from hw]; trivial

/-! ### Moves -/

namespace Memory.Typed

variable {m : Memory} {held : List Address} {id : Nat} {name : String} {f : Frame} {x : Slot}
  {type : DeclaredType} {v : Value}

theorem new (config : Config) : (Memory.new config).Typed where
  flat _ hx := absurd hx List.not_mem_nil
  slots _ hx := absurd hx List.not_mem_nil
  entries _ he := absurd he List.not_mem_nil

theorem kept {h : Heap} (ht : m.Typed) (hk : m.heap.Kept h) :
    Memory.Typed { m with heap := h } where
  flat := ht.flat
  slots x hx := (ht.slots x hx).kept hk
  entries e he := by
    obtain ⟨n, hn⟩ := hk.exists_mem he
    have hold := ht.entries _ hn
    exact hold.kept hk

theorem allocated {c : Contents} (ht : m.Typed) (hs : m.Sound (c.references ++ held))
    (hg : m.heap.get? m.addresses.next = none) (hc : m.heap.EntryTyped type c) :
    (m.allocated type c).Typed := by
  obtain ⟨hout, hin⟩ := hs.balanced.not_held hg
  have hslots : m.addresses.next ∉ m.stack.references := List.count_eq_zero.1 (by omega)
  have hnew : m.addresses.next ∉ c.references ++ held := List.count_eq_zero.1 (by omega)
  refine ⟨ht.flat, fun x hx => (ht.slots x hx).appended fun hxa => ?_, fun e he => ?_⟩
  · exact hslots (List.mem_filterMap.2 ⟨x, hx, hxa⟩)
  · rcases List.mem_append.1 he with he | he
    · refine (ht.entries e he).appended fun hea => ?_
      exact List.count_eq_zero.1 hin (List.mem_flatMap.2 ⟨e, he, hea⟩)
    · rw [List.mem_singleton.1 he]
      exact hc.appended fun hca => hnew (List.mem_append_left _ hca)

theorem object {category : String} {fields : List Field} (ht : m.Typed) (hs : m.Sound [])
    (hg : m.heap.get? m.addresses.next = none) (hf : ProperFields fields) :
    (m.allocated (.object category) (.object fields)).Typed :=
  ht.allocated (hs.object_references hf.addressFree) hg (.object hf)

theorem declared (ht : m.Typed) (hs : m.stack.WellFormed) (hf : m.stack.frame? id = some f)
    (hflat : type.IsFlat) (hv : m.heap.Admits type v) : (m.declared id name type v).Typed := by
  refine ⟨fun y hy => ?_, fun y hy => ?_, ht.entries⟩
  · rcases hs.mem_slots_push hf hy with hy | rfl
    · exact ht.flat y hy
    · exact hflat
  · rcases hs.mem_slots_push hf hy with hy | rfl
    · exact ht.slots y hy
    · exact hv

theorem written (ht : m.Typed) (hs : m.stack.WellFormed) (hf : m.stack.frame? id = some f)
    (hx : f.slot? name = some x) (hv : m.heap.Admits x.type v) : (m.written id name v).Typed := by
  refine ⟨fun y hy => ?_, fun y hy => ?_, ht.entries⟩
  · rcases hs.mem_slots_write hf hx hy with hy | rfl
    · exact ht.flat y hy
    · exact ht.flat x (Stack.mem_slots_of_slot? hf hx)
  · rcases hs.mem_slots_write hf hx hy with hy | rfl
    · exact ht.slots y hy
    · exact hv

end Memory.Typed

/-! ### Steps -/

section Steps

variable {m m' : Memory} {id : Nat} {name : String} {f : Frame} {x : Slot} {v : Value}

theorem Rebound.typed {taken : List Address} {collected : List Entry} (ht : m.Typed)
    (hs : m.stack.WellFormed) (hf : m.stack.frame? id = some f) (hx : f.slot? name = some x)
    (hv : m.heap.Admits x.type v) (hr : Rebound m id name x.value v taken collected m') :
    m'.Typed := by
  cases hr with
  | same he => exact ht
  | @changed _ h _ hr =>
      have hk : m.heap.Kept (h.retained taken) :=
        (Heap.Kept.of_releaseAll hr).trans (.retained h taken)
      exact (ht.kept hk).written hs hf hx (hv.kept hk)

/-- The entry at a new address is the one allocated there. -/
theorem Memory.type_of_mem_allocated {type : DeclaredType} {c : Contents} {e : Entry}
    (hg : m.heap.get? m.addresses.next = none) (he : e ∈ (m.allocated type c).heap.entries)
    (ha : e.address = m.addresses.next) : e.type = type := by
  rcases List.mem_append.1 he with he | he
  · exact absurd (decide_eq_true ha) (List.find?_eq_none.1 hg e he)
  · rw [List.mem_singleton.1 he]

theorem admits_null {h : Heap} {type : DeclaredType} (ht : type.isReference = true) :
    h.Admits type .null := by
  cases type with
  | primitive p => cases ht
  | _ => trivial

/-- What the elements of an array yield is admitted as an element. -/
theorem admits_of_elementYields {type : DeclaredType} {elements : List Element}
    {values : List Value} (ht : m.Typed) (hf : m.stack.frame? id = some f)
    (he : ProperElements type elements)
    (hv : List.Forall₂ (ElementYields f type) elements values) :
    values ≠ [] ∧ ∀ v ∈ values, m.heap.Admits type v := by
  constructor
  · rintro rfl
    cases hv
    exact he.ne_nil rfl
  · intro v hvs
    obtain ⟨element, hmem, hy⟩ := exists_mem_of_forall₂ hv hvs
    cases hy with
    | value v => exact .written (he.written v hmem)
    | copy hx ha => exact .valueAs ha (ht.slots _ (Stack.mem_slots_of_slot? hf hx))

/-- **A step keeps the store well typed** if what is passed in is. -/
theorem Step.typed {op : Operation} {answer : Answer} (hs : m.Sound []) (ht : m.Typed)
    (hw : op.WellTyped) (h : Step m op answer m') : m'.Typed := by
  cases h with
  | declareScalar hf hn hv =>
      refine ht.declared hs.stack hf trivial ?_
      exact Primitive.Holds.widen (by simp [Primitive.accepts]) hw
  | declareNull hf hn hty =>
      exact ht.declared hs.stack hf (DeclaredType.IsBasic.isFlat hw) (admits_null hty)
  | declareObject hf hn hr hg =>
      exact (ht.object hs hg hw).declared hs.stack hf trivial fun e =>
        Memory.type_of_mem_allocated hg
  | @declareArray _ _ _ _ values _ hf hn hr hg hv =>
      have hlive := isSome_get?_of_elementYields hs hf (Operation.WellTyped.addressFree hw) hv
      obtain ⟨hne, hadm⟩ := admits_of_elementYields ht hf hw.2 hv
      have hk := Heap.Kept.retained m.heap (Contents.array values).references
      have hnone := Heap.get?_retained_eq_none hg (Contents.array values).references
      have hal := (ht.kept hk).allocated (hs.retained hlive) hnone
        (.array hw.1 hne fun v hvs => (hadm v hvs).kept hk)
      exact hal.declared hs.stack hf hw.1 fun e => Memory.type_of_mem_allocated hnone
  | @declareCopy _ _ _ type _ x hf hn hx ha =>
      have hk := Heap.Kept.retained m.heap (x.valueAs type).referent?.toList
      have hv := Heap.Admits.valueAs ha (ht.slots _ (Stack.mem_slots_of_slot? hf hx))
      exact (ht.kept hk).declared hs.stack hf (DeclaredType.IsBasic.isFlat hw) (hv.kept hk)
  | assignValue hf hx hy ha hp =>
      exact ht.written hs.stack hf hx (.valueAs ha (ht.slots _ (Stack.mem_slots_of_slot? hf hy)))
  | assignReference hf hx hy ha hp hr =>
      apply hr.typed ht hs.stack hf hx
      rw [DeclaredType.eq_of_accepts ha hp]
      exact ht.slots _ (Stack.mem_slots_of_slot? hf hy)
  | assignLiteral hf hx hp ha hv =>
      apply ht.written hs.stack hf hx
      rw [hp]
      exact Primitive.Holds.widen ha hw
  | assignNull hf hx hp hr => exact hr.typed ht hs.stack hf hx (admits_null hp)
  | assignNew hf hx hp hroom hg hr =>
      apply hr.typed (ht.object hs hg hw) hs.stack hf hx
      rw [hp]
      exact fun e => Memory.type_of_mem_allocated hg
  | enter hd =>
      refine ⟨fun x hx => ht.flat x ?_, fun x hx => ht.slots x ?_, ht.entries⟩
      all_goals rwa [Stack.slots_push] at hx
  | leave hp hr =>
      have hk := ht.kept (.of_releaseAll hr)
      have hsub := Stack.slots_of_pop? hp
      refine ⟨fun x hx => hk.flat x ?_, fun x hx => hk.slots x ?_, hk.entries⟩
      all_goals exact hsub ▸ List.mem_append_left _ hx

end Steps

/-! ### Live references -/

/-- What a place of a type holds when references are followed: an object of the category, or an
array of elements that conform to the element type. -/
inductive Heap.Conforms (h : Heap) : DeclaredType → Value → Prop where
  | primitive {p : Primitive} {v : Value} (hv : p.Holds v) : Conforms h (.primitive p) v
  | noObject {category : String} : Conforms h (.object category) .null
  | object {category : String} {e : Entry} {fields : List Field}
      (hg : h.get? e.address = some e) (ht : e.type = .object category)
      (hc : e.contents = .object fields) (hf : ProperFields fields) :
      Conforms h (.object category) (.objectRef e.address)
  | noArray {element : DeclaredType} (hb : element.IsBasic) : Conforms h (.array element) .null
  | array {element : DeclaredType} {e : Entry} {values : List Value} (hb : element.IsBasic)
      (hg : h.get? e.address = some e) (ht : e.type = .array element)
      (hc : e.contents = .array values) (hne : values ≠ [])
      (hv : ∀ v ∈ values, Conforms h element v) : Conforms h (.array element) (.arrayRef e.address)

namespace Memory.Typed

variable {m : Memory} {type : DeclaredType} {v : Value}

/-- A live reference leads to an entry of the type it is admitted for. -/
theorem exists_entry (ht : m.Typed) {a : Address}
    (ha : ∀ e ∈ m.heap.entries, e.address = a → e.type = type)
    (hlive : ∀ b ∈ (some a).toList, (m.heap.get? b).isSome) :
    ∃ e, m.heap.get? a = some e ∧ e.address = a ∧ e ∈ m.heap.entries ∧ e.type = type ∧
      m.heap.EntryTyped type e.contents := by
  obtain ⟨e, hg⟩ := Option.isSome_iff_exists.1 (hlive a (Option.mem_toList.2 rfl))
  have hmem := Heap.mem_of_get? hg
  have hadr := Heap.address_of_get? hg
  have hty := ha e hmem hadr
  exact ⟨e, hg, hadr, hmem, hty, hty ▸ ht.entries e hmem⟩

theorem conforms_of_isBasic (ht : m.Typed) (hb : type.IsBasic) (ha : m.heap.Admits type v)
    (hlive : ∀ a ∈ v.referent?.toList, (m.heap.get? a).isSome) : m.heap.Conforms type v := by
  cases type with
  | primitive p => exact .primitive ha
  | array element => exact hb.elim
  | object category =>
      cases v with
      | null => exact .noObject
      | objectRef a =>
          obtain ⟨e, hg, rfl, -, hty, hentry⟩ := ht.exists_entry ha hlive
          generalize hc : e.contents = c at hentry
          cases hentry with
          | object hf => exact .object hg hty hc hf
      | _ => exact ha.elim

/-- Elements of a live array conform to its element type. -/
theorem conforms_element {e : Entry} {element : DeclaredType} {values : List Value}
    (ht : m.Typed) (hs : m.Sound []) (he : e ∈ m.heap.entries) (hc : e.contents = .array values)
    (hb : element.IsBasic) (hv : ∀ v ∈ values, m.heap.Admits element v) :
    ∀ v ∈ values, m.heap.Conforms element v := by
  intro v hvs
  refine ht.conforms_of_isBasic hb (hv v hvs) fun a ha => hs.isSome_get?_of_mem_entries he ?_
  rw [hc]
  exact List.mem_filterMap.2 ⟨v, hvs, Option.mem_toList.1 ha⟩

/-- **In a sound memory, admitted references lead to entries of the type of their place.** -/
theorem conforms (ht : m.Typed) (hs : m.Sound []) (hflat : type.IsFlat)
    (ha : m.heap.Admits type v) (hlive : ∀ a ∈ v.referent?.toList, (m.heap.get? a).isSome) :
    m.heap.Conforms type v := by
  cases type with
  | primitive p => exact .primitive ha
  | object category => exact ht.conforms_of_isBasic trivial ha hlive
  | array element =>
      cases v with
      | null => exact .noArray hflat
      | arrayRef a =>
          obtain ⟨e, hg, rfl, hmem, hty, hentry⟩ := ht.exists_entry ha hlive
          generalize hc : e.contents = c at hentry
          cases hentry with
          | array hb hne hv =>
              exact .array hb hg hty hc hne (ht.conforms_element hs hmem hc hb hv)
      | _ => exact ha.elim

end Memory.Typed

end Store

end StackHeap
