import StackHeap.Proofs.Store.Step

/-! # The two outcomes of an operation

In a sound memory an operation either refuses, which changes nothing and is never the fault of the
memory, or it is a step (`Operation.resolves`).  This is where the branches that would leave a
broken memory are seen to be unreachable.  A run of operations therefore keeps the memory sound
(`Memory.Sound.runAll`). -/

namespace StackHeap.Store

open Number

/-- The error is not about the memory being broken. -/
def MemoryError.IsRefusal (e : MemoryError) : Prop := ∀ fault, e ≠ .broken fault

/-! ### Refusals -/

/-- An operation refuses: it fails, not for a broken memory, and changes nothing. -/
def Refuses {α : Type} (op : MemoryM α) (m : Memory) : Prop :=
  ∃ e, op m = .error e m ∧ e.IsRefusal

namespace Memory

variable {α β : Type} {m : Memory} {id : Nat} {name : String}

theorem bind_ok {op : MemoryM α} {k : α → MemoryM β} {a : α} {m' : Memory}
    (h : op m = .ok a m') : (op >>= k) m = k a m' := by
  simp only [bind, EStateM.bind, h]

theorem bind_error {op : MemoryM α} {k : α → MemoryM β} {e : MemoryError} {m' : Memory}
    (h : op m = .error e m') : (op >>= k) m = .error e m' := by
  simp only [bind, EStateM.bind, h]

theorem ask_ok {q : Memory → Except MemoryError α} {a : α} (h : q m = .ok a) :
    ask q m = .ok a m := by
  simp only [ask, h]

theorem refuses_ask {q : Memory → Except MemoryError α} {k : α → MemoryM β} {e : MemoryError}
    (h : q m = .error e) (he : e.IsRefusal) : Refuses (ask q >>= k) m :=
  ⟨e, by simp only [bind, EStateM.bind, ask, h], he⟩

/-- A refusal after steps that only ask. -/
theorem refuses_bind {op : MemoryM α} {k : α → MemoryM β} {a : α} (h : op m = .ok a m)
    (hk : Refuses (k a) m) : Refuses (op >>= k) m := by
  obtain ⟨e, he, hr⟩ := hk
  exact ⟨e, by rw [bind_ok h, he], hr⟩

theorem refuses_map {op : MemoryM α} (f : α → β) (h : Refuses op m) : Refuses (f <$> op) m := by
  obtain ⟨e, he, hr⟩ := h
  exact ⟨e, by simp only [Functor.map, EStateM.map, he], hr⟩

theorem map_ok {op : MemoryM α} {a : α} {m' : Memory} (f : α → β) (h : op m = .ok a m') :
    (f <$> op) m = .ok (f a) m' := by
  simp only [Functor.map, EStateM.map, h]

/-- A frame is found, or the operation refuses. -/
theorem frame_cases (m : Memory) (id : Nat) :
    (∃ e, m.frame id = .error e ∧ e.IsRefusal) ∨
      ∃ f, m.stack.frame? id = some f ∧ m.frame id = .ok f := by
  unfold Memory.frame
  cases hf : m.stack.frame? id with
  | none => exact .inl ⟨_, rfl, fun _ => by simp⟩
  | some f => exact .inr ⟨f, rfl, rfl⟩

/-- A name is free in a frame, or the operation refuses. -/
theorem requireFree_cases (m : Memory) (id : Nat) (name : String) :
    (∃ e, m.requireFree id name = .error e ∧ e.IsRefusal) ∨
      ∃ f, m.stack.frame? id = some f ∧ f.slot? name = none ∧ m.requireFree id name = .ok () := by
  unfold Memory.requireFree
  rcases frame_cases m id with ⟨e, he, hr⟩ | ⟨f, hf, hok⟩
  · exact .inl ⟨e, by rw [he]; rfl, hr⟩
  · cases hx : f.slot? name with
    | none =>
        refine .inr ⟨f, hf, hx, ?_⟩
        simp only [hok, bind, Except.bind, hx, Option.isSome_none, Bool.false_eq_true, if_false]
    | some x =>
        refine .inl ⟨.duplicateVariable name f.name, ?_, fun _ => by simp⟩
        simp only [hok, bind, Except.bind, hx, Option.isSome_some, if_true]

/-- A variable is found, or the operation refuses. -/
theorem lookup_cases (m : Memory) (id : Nat) (name : String) :
    (∃ e, m.lookup id name = .error e ∧ e.IsRefusal) ∨
      ∃ f x, m.stack.frame? id = some f ∧ f.slot? name = some x ∧ m.lookup id name = .ok x := by
  unfold Memory.lookup
  rcases frame_cases m id with ⟨e, he, hr⟩ | ⟨f, hf, hok⟩
  · exact .inl ⟨e, by rw [he]; rfl, hr⟩
  · cases hx : f.slot? name with
    | none =>
        refine .inl ⟨.undefinedVariable name f.name, ?_, fun _ => by simp⟩
        simp only [hok, bind, Except.bind, hx]
    | some x =>
        refine .inr ⟨f, x, hf, hx, ?_⟩
        simp only [hok, bind, Except.bind, hx]

/-- There is room for an entry, or the operation refuses. -/
theorem requireRoom_cases (m : Memory) :
    (∃ e, m.requireRoom = .error e ∧ e.IsRefusal) ∨
      m.heap.hasRoom 1 = true ∧ m.requireRoom = .ok () := by
  by_cases hr : m.heap.hasRoom 1 = true
  · exact .inr ⟨hr, if_pos hr⟩
  · exact .inl ⟨_, if_neg hr, fun _ => by simp⟩

/-- What is offered is accepted, or the operation refuses. -/
theorem requireAccepts_cases (target : String) (type source : DeclaredType) :
    (∃ e, requireAccepts target type source = .error e ∧ e.IsRefusal) ∨
      type.accepts source = true ∧ requireAccepts target type source = .ok () := by
  by_cases ha : type.accepts source = true
  · exact .inr ⟨ha, if_pos ha⟩
  · exact .inl ⟨_, if_neg ha, fun _ => by simp⟩

/-! ### Moves carried out -/

variable {f : Frame} {x : Slot} {type : DeclaredType} {value : Value}

theorem onHeap_ok {op : HeapM α} {a : α} {h : Heap} (ho : op m.heap = .ok a h) :
    onHeap op m = .ok a { m with heap := h } := by
  simp only [onHeap, ho]

theorem onHeap_error {op : HeapM α} {e : MemoryError} {h : Heap} (ho : op m.heap = .error e h) :
    onHeap op m = .error e { m with heap := h } := by
  simp only [onHeap, ho]

theorem lookup_ok (hf : m.stack.frame? id = some f) (hx : f.slot? name = some x) :
    m.lookup id name = .ok x := by
  simp only [lookup, frame, hf, bind, Except.bind, hx]

theorem requireFree_ok (hf : m.stack.frame? id = some f) (hn : f.slot? name = none) :
    m.requireFree id name = .ok () := by
  simp only [requireFree, frame, hf, bind, Except.bind, hn, Option.isSome_none, Bool.false_eq_true,
    if_false]

/-- A variable that was free and is declared is found. -/
theorem lookup_declared (hf : m.stack.frame? id = some f) (hn : f.slot? name = none)
    (type : DeclaredType) (value : Value) : (m.declared id name type value).lookup id name =
      .ok ⟨m.addresses.next, name, type, value⟩ :=
  lookup_ok (m := m.declared id name type value)
    (Stack.frame?_update (g := (·.push ⟨m.addresses.next, name, type, value⟩)) (fun _ => rfl) hf)
    (Frame.slot?_push (x := ⟨m.addresses.next, name, type, value⟩) hn)

/-- A variable that is written shows the value. -/
theorem lookup_written (hf : m.stack.frame? id = some f) (hx : f.slot? name = some x)
    (value : Value) :
    (m.written id name value).lookup id name = .ok { x with value := value } :=
  lookup_ok (m := m.written id name value)
    (Stack.frame?_update (g := (·.write name value)) (fun _ => rfl) hf) (Frame.slot?_write hx value)

theorem freshAddress_ok (m : Memory) :
    freshAddress m = .ok m.addresses.next { m with addresses := m.addresses.advance } := rfl

/-- With room and a free address, an allocation goes through. -/
theorem allocation_ok {type : DeclaredType} {contents : Contents} (hroom : m.heap.hasRoom 1 = true)
    (hfree : m.heap.get? m.addresses.next = none) (k : Address → MemoryM α) :
    (do
      let a ← freshAddress
      onHeap (Heap.allocate a type contents)
      k a : MemoryM α) m = k m.addresses.next (m.allocated type contents) :=
  (bind_ok (freshAddress_ok m)).trans
    (bind_ok (onHeap_ok (m := { m with addresses := m.addresses.advance })
      (Heap.allocate_eq hroom hfree)))

theorem pushSlot_ok (hf : m.stack.frame? id = some f) (name : String) (type : DeclaredType)
    (value : Value) :
    pushSlot id name type value m = .ok m.addresses.next (m.declared id name type value) := by
  have hok : ({ m with addresses := m.addresses.advance } : Memory).frame id = .ok f := by
    simp only [frame, hf]
  simp only [pushSlot, bind, EStateM.bind, freshAddress, ask, hok]
  rfl

theorem overwrite_ok (hf : m.stack.frame? id = some f) (hx : f.slot? name = some x)
    (value : Value) : overwrite id name value m = .ok () (m.written id name value) := by
  simp only [overwrite, bind, EStateM.bind, ask, lookup_ok hf hx]
  rfl

/-- What a slot shows next gains a holder unless it is counted already. -/
def takenBy (value : Value) (counted : Bool) : List Address :=
  if counted then [] else value.referent?.toList

theorem rebind_same (hf : m.stack.frame? id = some f) (hx : f.slot? name = some x)
    (he : x.value = value) (counted : Bool) : rebind id name value counted m = .ok [] m := by
  simp only [rebind, bind, EStateM.bind, ask, lookup_ok hf hx, if_pos he]
  rfl

theorem rebind_changed {counted : Bool} {collected : List Entry} {h : Heap}
    (hf : m.stack.frame? id = some f) (hx : f.slot? name = some x) (hne : x.value ≠ value)
    (hr : m.heap.releaseAll x.value.referent?.toList = .ok collected h)
    (hl : ∀ a ∈ takenBy value counted, (h.get? a).isSome) :
    rebind id name value counted m = .ok collected
      ({ m with heap := h.retained (takenBy value counted) }.written id name value) := by
  have hret := Heap.retainAll_eq hl
  have hput : overwrite id name value { m with heap := h.retained (takenBy value counted) } =
      .ok () ({ m with heap := h.retained (takenBy value counted) }.written id name value) :=
    overwrite_ok (m := { m with heap := h.retained (takenBy value counted) }) hf hx value
  -- The rest once the old entry is released.
  have hrest : (if (!counted) = true then do
      onHeap (Heap.retainAll value.referent?.toList)
      overwrite id name value
      pure collected
    else do
      overwrite id name value
      pure collected : MemoryM (List Entry)) { m with heap := h } =
      .ok collected
        ({ m with heap := h.retained (takenBy value counted) }.written id name value) := by
    cases counted with
    | false => exact (bind_ok (onHeap_ok hret)).trans (bind_ok hput)
    | true => exact bind_ok hput
  unfold rebind
  rw [bind_ok (ask_ok (lookup_ok hf hx))]
  dsimp only
  rw [if_neg hne]
  cases hxr : x.value.referent? with
  | none =>
      rw [hxr, Option.toList_none, Heap.releaseAll_nil] at hr
      cases hr
      exact hrest
  | some a =>
      rw [hxr] at hr
      exact (bind_ok (onHeap_ok hr)).trans hrest

/-- Elements yield their values, or the operation refuses. -/
theorem elementValues_cases (hf : m.stack.frame? id = some f) (array : String)
    (type : DeclaredType) (index : Nat) (elements : List Element) :
    (∃ e, m.elementValues id array type index elements = .error e ∧ e.IsRefusal) ∨
      ∃ values, m.elementValues id array type index elements = .ok values ∧
        List.Forall₂ (ElementYields f type) elements values := by
  induction elements generalizing index with
  | nil => exact .inr ⟨[], rfl, .nil⟩
  | cons element elements ih =>
      cases element with
      | value v =>
          rcases ih (index + 1) with ⟨e, he, hr⟩ | ⟨values, hok, hv⟩
          · exact .inl ⟨e, by simp only [elementValues, he]; rfl, hr⟩
          · exact .inr ⟨v :: values, by simp only [elementValues, hok]; rfl, .cons (.value v) hv⟩
      | «variable» source =>
          rcases lookup_cases m id source with ⟨e, he, hr⟩ | ⟨f', x, hf', hx, hlook⟩
          · exact .inl ⟨e, by simp only [elementValues, he]; rfl, hr⟩
          · obtain rfl : f = f' := Option.some.inj (hf.symm.trans hf')
            rcases requireAccepts_cases (elementName array index) type x.type with
              ⟨e, he, hr⟩ | ⟨ha, hacc⟩
            · exact .inl ⟨e, by simp only [elementValues, hlook, bind, Except.bind, he], hr⟩
            · rcases ih (index + 1) with ⟨e, he, hr⟩ | ⟨values, hok, hv⟩
              · exact .inl ⟨e, by simp only [elementValues, hlook, bind, Except.bind, hacc, he], hr⟩
              · refine .inr ⟨x.valueAs type :: values, ?_, .cons (.copy hx ha) hv⟩
                simp only [elementValues, hlook, bind, Except.bind, hacc, hok]
                rfl

/-- In a sound memory a variable can be bound to what is live. -/
theorem exists_rebind {held : List Address} (value : Value) (counted : Bool) (hs : m.Sound held)
    (hf : m.stack.frame? id = some f) (hx : f.slot? name = some x)
    (hk : x.type.isReference = value.isReference)
    (hv : value.referent?.toList = takenBy value counted ++ held)
    (ht : x.value ≠ value →
      ∀ a ∈ takenBy value counted, ∃ y ∈ m.stack.slots, y ≠ x ∧ y.value.referent? = some a) :
    ∃ collected m', rebind id name value counted m = .ok collected m' ∧
      Rebound m id name x.value value (takenBy value counted) collected m' := by
  by_cases he : x.value = value
  · exact ⟨[], m, rebind_same hf hx he counted, .same he⟩
  · obtain ⟨collected, h, hr, -, hlive, -⟩ := hs.rebound hf hx hk hv (ht he)
    exact ⟨collected, _, rebind_changed hf hx he hr hlive, .changed he hr⟩

/-! ### Operations carried out -/

section CarriedOut

variable {category : String} {fields : List Field} {elements : List Element} {values : List Value}
  {p source : Primitive}

theorem declareScalar_ok (hf : m.stack.frame? id = some f)
    (hok : m.requireFree id name = .ok ()) (hv : value.isReference = false) :
    declareScalar id name p value m =
      .ok m.addresses.next (m.declared id name (.primitive p) (value.widen p)) := by
  rw [declareScalar, bind_ok (ask_ok hok), hv]
  exact pushSlot_ok hf name _ _

theorem declareNull_ok (hf : m.stack.frame? id = some f) (hok : m.requireFree id name = .ok ())
    (ht : type.isReference = true) :
    declareNull id name type m = .ok m.addresses.next (m.declared id name type .null) := by
  rw [declareNull, bind_ok (ask_ok hok), ht]
  exact pushSlot_ok hf name _ _

theorem declareCopy_ok {target : String} (hf : m.stack.frame? id = some f)
    (hok : m.requireFree id target = .ok ()) (hx : f.slot? name = some x)
    (ha : type.accepts x.type = true)
    (hlive : ∀ a ∈ (x.valueAs type).referent?.toList, (m.heap.get? a).isSome) :
    declareCopy id target type name m = .ok m.addresses.next
      ((m.retained (x.valueAs type).referent?.toList).declared id target type
        (x.valueAs type)) := by
  have hacc : requireAccepts target type x.type = .ok () := if_pos ha
  rw [declareCopy, bind_ok (ask_ok hok), bind_ok (ask_ok (lookup_ok hf hx)), bind_ok (ask_ok hacc),
    bind_ok (onHeap_ok (Heap.retainAll_eq hlive))]
  exact pushSlot_ok (m := m.retained (x.valueAs type).referent?.toList) hf target _ _

theorem declareObject_ok (hf : m.stack.frame? id = some f) (hok : m.requireFree id name = .ok ())
    (hroom : m.heap.hasRoom 1 = true) (hfree : m.heap.get? m.addresses.next = none) :
    declareObject id name category fields m = .ok m.addresses.next
      ((m.allocated (.object category) (.object fields)).declared id name (.object category)
        (.objectRef m.addresses.next)) := by
  have hrok : m.requireRoom = .ok () := if_pos hroom
  rw [declareObject, bind_ok (ask_ok hok), bind_ok (ask_ok hrok),
    allocation_ok hroom hfree fun a => do
      let _ ← pushSlot id name (.object category) (.objectRef a)
      return a]
  exact bind_ok (pushSlot_ok (m := m.allocated (.object category) (.object fields)) hf name _ _)

theorem declareArray_ok (hf : m.stack.frame? id = some f) (hok : m.requireFree id name = .ok ())
    (hroom : m.heap.hasRoom 1 = true) (hfree : m.heap.get? m.addresses.next = none)
    (hv : m.elementValues id name type 0 elements = .ok values)
    (hlive : ∀ a ∈ values.filterMap Value.referent?, (m.heap.get? a).isSome) :
    declareArray id name type elements m = .ok m.addresses.next
      (((m.retained (values.filterMap Value.referent?)).allocated (.array type)
        (.array values)).declared id name (.array type) (.arrayRef m.addresses.next)) := by
  have hrok : m.requireRoom = .ok () := if_pos hroom
  rw [declareArray, bind_ok (ask_ok hok), bind_ok (ask_ok hrok), bind_ok (ask_ok hv),
    bind_ok (onHeap_ok (Heap.retainAll_eq hlive))]
  refine (allocation_ok (m := m.retained (values.filterMap Value.referent?)) ?_ ?_ fun a => do
      let _ ← pushSlot id name (.array type) (.arrayRef a)
      return a).trans ?_
  · exact (Heap.hasRoom_retained _ _ _).trans hroom
  · exact Heap.get?_retained_eq_none hfree _
  · exact bind_ok (pushSlot_ok (m := (m.retained (values.filterMap Value.referent?)).allocated
      (.array type) (.array values)) hf name _ _)

theorem assignNew_ok {collected : List Entry} {m' : Memory} (hf : m.stack.frame? id = some f)
    (hx : f.slot? name = some x) (ht : x.type = .object category) (hroom : m.heap.hasRoom 1 = true)
    (hfree : m.heap.get? m.addresses.next = none)
    (hr : rebind id name (.objectRef m.addresses.next) true
      (m.allocated (.object category) (.object fields)) = .ok collected m') :
    assignNew id name category fields m = .ok m.addresses.next m' := by
  have hrok : m.requireRoom = .ok () := if_pos hroom
  rw [assignNew, bind_ok (ask_ok (lookup_ok hf hx))]
  dsimp only
  rw [if_neg (not_not_intro ht), bind_ok (ask_ok hrok), allocation_ok hroom hfree fun a => do
    let _ ← rebind id name (.objectRef a) true
    return a]
  exact bind_ok hr

theorem assignLiteral_ok (hf : m.stack.frame? id = some f) (hx : f.slot? name = some x)
    (hp : x.type = .primitive p) (ha : p.accepts source = true) (hv : value.isReference = false) :
    assignLiteral id name source value m = .ok () (m.written id name (value.widen p)) := by
  have hfilter : x.type.primitive?.filter (fun p => p.accepts source && !value.isReference) =
      some p := by
    rw [hp]
    exact Option.filter_eq_some_iff.2 ⟨rfl, by rw [ha, hv]; rfl⟩
  rw [assignLiteral, bind_ok (ask_ok (lookup_ok hf hx)), hfilter]
  exact overwrite_ok hf hx _

theorem assignValue_ok {target : String} {t : Slot} (hf : m.stack.frame? id = some f)
    (ht : f.slot? target = some t) (hx : f.slot? name = some x)
    (ha : t.type.accepts x.type = true) (hp : t.type.isReference = false) :
    assign id target name m = .ok [] (m.written id target (x.valueAs t.type)) := by
  have hacc : requireAccepts target t.type x.type = .ok () := if_pos ha
  rw [assign, bind_ok (ask_ok (lookup_ok hf ht)), bind_ok (ask_ok (lookup_ok hf hx)),
    bind_ok (ask_ok hacc), hp]
  exact bind_ok (overwrite_ok hf ht _)

end CarriedOut

end Memory

/-! ### Bounds on addresses -/

section Bounds

variable {α β : Type} {m m' : Memory}

theorem usedAfter_map (f : α → β) (op : MemoryM α) (m : Memory) :
    usedAfter (f <$> op) m = usedAfter op m := by
  simp only [usedAfter, Functor.map, EStateM.map]
  cases op m <;> rfl

theorem usedAfter_bind_ok {op : MemoryM α} {k : α → MemoryM β} {a : α} (h : op m = .ok a m') :
    usedAfter (op >>= k) m = usedAfter (k a) m' := by
  rw [usedAfter, Memory.bind_ok h]
  rfl

/-- An address that was drawn counts among those handed out in the end. -/
theorem used_lt_usedAfter {k : Address → MemoryM β} (hk : ∀ a, Advances (k a)) (m : Memory) :
    m.addresses.used < usedAfter (Memory.freshAddress >>= k) m := by
  rw [usedAfter_bind_ok (Memory.freshAddress_ok m)]
  exact hk m.addresses.next { m with addresses := m.addresses.advance }

theorem Operation.used_after (op : Operation) (m : Memory) :
    (op.after m).addresses.used = usedAfter op.run m := by
  unfold after usedAfter
  cases op.run m <;> rfl

end Bounds

/-! ### Operations -/

namespace Operation

open Memory

/-- The operation refuses or is a step. -/
def Resolves (op : Operation) (m : Memory) : Prop :=
  Refuses op.run m ∨ ∃ answer m', op.run m = .ok answer m' ∧ Step m op answer m'

variable {m : Memory}

theorem resolves_declareScalar (m : Memory) (id : Nat) (name : String) (type : Primitive)
    (value : Value) : (declareScalar id name type value).Resolves m := by
  rcases requireFree_cases m id name with ⟨e, he, hr⟩ | ⟨f, hf, hn, hok⟩
  · exact .inl (refuses_map _ (refuses_ask he hr))
  · cases hv : value.isReference with
    | true =>
        refine .inl (refuses_map _ ⟨.incompatible name (.primitive type) .reference, ?_,
          fun _ => by simp⟩)
        rw [Memory.declareScalar, bind_ok (ask_ok hok), hv]
        rfl
    | false =>
        exact .inr ⟨_, _, map_ok _ (declareScalar_ok hf hok hv), .declareScalar hf hn hv⟩

theorem resolves_declareNull (m : Memory) (id : Nat) (name : String) (type : DeclaredType) :
    (declareNull id name type).Resolves m := by
  rcases requireFree_cases m id name with ⟨e, he, hr⟩ | ⟨f, hf, hn, hok⟩
  · exact .inl (refuses_map _ (refuses_ask he hr))
  · cases ht : type.isReference with
    | false =>
        refine .inl (refuses_map _ ⟨.incompatible name type .null, ?_, fun _ => by simp⟩)
        rw [Memory.declareNull, bind_ok (ask_ok hok), ht]
        rfl
    | true =>
        exact .inr ⟨_, _, map_ok _ (declareNull_ok hf hok ht), .declareNull hf hn ht⟩

theorem resolves_declareObject {id : Nat} {name category : String} {fields : List Field}
    (hs : m.Sound [])
    (hu : usedAfter (Memory.declareObject id name category fields) m ≤ pow2 53) :
    (declareObject id name category fields).Resolves m := by
  rcases requireFree_cases m id name with ⟨e, he, hr⟩ | ⟨f, hf, hn, hok⟩
  · exact .inl (refuses_map _ (refuses_ask he hr))
  rcases requireRoom_cases m with ⟨e, he, hr⟩ | ⟨hroom, hrok⟩
  · exact .inl (refuses_map _ (refuses_bind (ask_ok hok) (refuses_ask he hr)))
  have hfree : m.heap.get? m.addresses.next = none := by
    rw [Memory.declareObject, usedAfter_bind_ok (ask_ok hok), usedAfter_bind_ok (ask_ok hrok)] at hu
    refine hs.intact.fresh (Nat.le_trans (used_lt_usedAfter (fun a => ?_) m) hu)
    exact .bind (.onHeap _) fun _ => .bind (.pushSlot _ _ _ _) fun _ => .pure _
  exact .inr ⟨_, _, map_ok _ (declareObject_ok hf hok hroom hfree),
    .declareObject hf hn hroom hfree⟩

theorem resolves_declareArray {id : Nat} {name : String} {type : DeclaredType}
    {elements : List Element} (hs : m.Sound [])
    (ha : (declareArray id name type elements).AddressFree)
    (hu : usedAfter (Memory.declareArray id name type elements) m ≤ pow2 53) :
    (declareArray id name type elements).Resolves m := by
  rcases requireFree_cases m id name with ⟨e, he, hr⟩ | ⟨f, hf, hn, hok⟩
  · exact .inl (refuses_map _ (refuses_ask he hr))
  rcases requireRoom_cases m with ⟨e, he, hr⟩ | ⟨hroom, hrok⟩
  · exact .inl (refuses_map _ (refuses_bind (ask_ok hok) (refuses_ask he hr)))
  rcases elementValues_cases hf name type 0 elements with ⟨e, he, hr⟩ | ⟨values, hvok, hv⟩
  · exact .inl (refuses_map _ (refuses_bind (ask_ok hok) (refuses_bind (ask_ok hrok)
      (refuses_ask he hr))))
  have hlive := isSome_get?_of_elementYields hs hf ha hv
  have hret := onHeap_ok (Heap.retainAll_eq hlive)
  have hfree : m.heap.get? m.addresses.next = none := by
    rw [Memory.declareArray, usedAfter_bind_ok (ask_ok hok), usedAfter_bind_ok (ask_ok hrok),
      usedAfter_bind_ok (ask_ok hvok), usedAfter_bind_ok hret] at hu
    refine hs.intact.fresh (Nat.le_trans
      (used_lt_usedAfter (fun a => ?_) (m.retained (values.filterMap Value.referent?))) hu)
    exact .bind (.onHeap _) fun _ => .bind (.pushSlot _ _ _ _) fun _ => .pure _
  exact .inr ⟨_, _, map_ok _ (declareArray_ok hf hok hroom hfree hvok hlive),
    .declareArray hf hn hroom hfree hv⟩

theorem resolves_declareCopy {id : Nat} {name source : String} {type : DeclaredType}
    (hs : m.Sound []) : (declareCopy id name type source).Resolves m := by
  rcases requireFree_cases m id name with ⟨e, he, hr⟩ | ⟨f, hf, hn, hok⟩
  · exact .inl (refuses_map _ (refuses_ask he hr))
  rcases lookup_cases m id source with ⟨e, he, hr⟩ | ⟨f', x, hf', hx, hlook⟩
  · exact .inl (refuses_map _ (refuses_bind (ask_ok hok) (refuses_ask he hr)))
  obtain rfl : f = f' := Option.some.inj (hf.symm.trans hf')
  rcases requireAccepts_cases name type x.type with ⟨e, he, hr⟩ | ⟨ha, hacc⟩
  · exact .inl (refuses_map _ (refuses_bind (ask_ok hok) (refuses_bind (ask_ok hlook)
      (refuses_ask he hr))))
  have hlive := hs.isSome_get?_valueAs hf hx type
  exact .inr ⟨_, _, map_ok _ (declareCopy_ok hf hok hx ha hlive), .declareCopy hf hn hx ha⟩

/-- A copy that the target accepts is assigned. -/
theorem exists_step_assign {id : Nat} {target source : String} {f : Frame} {t x : Slot}
    (hs : m.Sound []) (hf : m.stack.frame? id = some f) (ht : f.slot? target = some t)
    (hx : f.slot? source = some x) (ha : t.type.accepts x.type = true) :
    ∃ answer m', (assign id target source).run m = .ok answer m' ∧
      Step m (assign id target source) answer m' := by
  have htok := lookup_ok hf ht
  have hxok := lookup_ok hf hx
  have hacc : requireAccepts target t.type x.type = .ok () := if_pos ha
  cases hp : t.type.isReference with
  | false => exact ⟨_, _, map_ok _ (assignValue_ok hf ht hx ha hp), .assignValue hf ht hx ha hp⟩
  | true =>
      have hfit := hs.fitting _ (Stack.mem_slots_of_slot? hf hx)
      have hk := DeclaredType.isReference_eq_of_accepts ha
      obtain ⟨collected, m', hr, hreb⟩ := exists_rebind x.value false hs hf ht
        (hk.trans hfit) (List.append_nil _).symm (exists_other_holder hf hx)
      refine ⟨_, _, map_ok _ ?_, .assignReference hf ht hx ha hp hreb⟩
      rw [Memory.assign, bind_ok (ask_ok htok), bind_ok (ask_ok hxok), bind_ok (ask_ok hacc), hp]
      exact hr

theorem resolves_assign {id : Nat} {target source : String} (hs : m.Sound []) :
    (assign id target source).Resolves m := by
  rcases lookup_cases m id target with ⟨e, he, hr⟩ | ⟨f, t, hf, ht, htok⟩
  · exact .inl (refuses_map _ (refuses_ask he hr))
  rcases lookup_cases m id source with ⟨e, he, hr⟩ | ⟨f', x, hf', hx, hxok⟩
  · exact .inl (refuses_map _ (refuses_bind (ask_ok htok) (refuses_ask he hr)))
  obtain rfl : f = f' := Option.some.inj (hf.symm.trans hf')
  rcases requireAccepts_cases target t.type x.type with ⟨e, he, hr⟩ | ⟨ha, -⟩
  · exact .inl (refuses_map _ (refuses_bind (ask_ok htok) (refuses_bind (ask_ok hxok)
      (refuses_ask he hr))))
  exact .inr (exists_step_assign hs hf ht hx ha)

theorem resolves_assignLiteral (m : Memory) (id : Nat) (target : String) (source : Primitive)
    (value : Value) : (assignLiteral id target source value).Resolves m := by
  rcases lookup_cases m id target with ⟨e, he, hr⟩ | ⟨f, t, hf, ht, htok⟩
  · exact .inl (refuses_map _ (refuses_ask he hr))
  cases hp : t.type.primitive?.filter fun p => p.accepts source && !value.isReference with
  | none =>
      refine .inl (refuses_map _ (refuses_bind (ask_ok htok) ?_))
      rw [hp]
      exact ⟨_, rfl, fun _ => by simp⟩
  | some p =>
      obtain ⟨hprim, hcond⟩ := Option.filter_eq_some_iff.1 hp
      rw [Bool.and_eq_true, Bool.not_eq_true'] at hcond
      have htype := DeclaredType.eq_of_primitive? hprim
      exact .inr ⟨_, _, map_ok _ (assignLiteral_ok hf ht htype hcond.1 hcond.2),
        .assignLiteral hf ht htype hcond.1 hcond.2⟩

/-- A reference variable is made to refer to nothing. -/
theorem exists_step_assignNull {id : Nat} {target : String} {f : Frame} {t : Slot}
    (hs : m.Sound []) (hf : m.stack.frame? id = some f) (ht : f.slot? target = some t)
    (hp : t.type.isReference = true) :
    ∃ answer m', (assignNull id target).run m = .ok answer m' ∧
      Step m (assignNull id target) answer m' := by
  obtain ⟨collected, m', hr, hreb⟩ := exists_rebind .null false hs hf ht
    hp rfl fun _ a ha => absurd ha List.not_mem_nil
  refine ⟨_, _, map_ok _ ?_, .assignNull hf ht hp hreb⟩
  rw [Memory.assignNull, bind_ok (ask_ok (lookup_ok hf ht)), hp]
  exact hr

theorem resolves_assignNull {id : Nat} {target : String} (hs : m.Sound []) :
    (assignNull id target).Resolves m := by
  rcases lookup_cases m id target with ⟨e, he, hr⟩ | ⟨f, t, hf, ht, htok⟩
  · exact .inl (refuses_map _ (refuses_ask he hr))
  cases hp : t.type.isReference with
  | false =>
      refine .inl (refuses_map _ (refuses_bind (ask_ok htok) ?_))
      rw [hp]
      exact ⟨_, rfl, fun _ => by simp⟩
  | true => exact .inr (exists_step_assignNull hs hf ht hp)

/-- A new object is refused by a variable of another type. -/
theorem refuses_assignNew {id : Nat} {target category : String} {fields : List Field} {f : Frame}
    {t : Slot} (hf : m.stack.frame? id = some f) (ht : f.slot? target = some t)
    (hne : t.type ≠ .object category) : Refuses (assignNew id target category fields).run m := by
  refine refuses_map _ (refuses_bind (ask_ok (lookup_ok hf ht)) ?_)
  dsimp only
  rw [if_pos hne]
  exact ⟨_, rfl, fun _ => by simp⟩

theorem resolves_assignNew {id : Nat} {target category : String} {fields : List Field}
    (hs : m.Sound []) (ha : (assignNew id target category fields).AddressFree)
    (hu : usedAfter (Memory.assignNew id target category fields) m ≤ pow2 53) :
    (assignNew id target category fields).Resolves m := by
  rcases lookup_cases m id target with ⟨e, he, hr⟩ | ⟨f, t, hf, ht, htok⟩
  · exact .inl (refuses_map _ (refuses_ask he hr))
  by_cases hp : t.type = .object category
  swap
  · exact .inl (refuses_assignNew hf ht hp)
  have hgo : Memory.assignNew id target category fields m = (do
      ask (·.requireRoom)
      let a ← freshAddress
      onHeap (Heap.allocate a (.object category) (.object fields))
      let _ ← rebind id target (.objectRef a) true
      return a : MemoryM Address) m := by
    rw [Memory.assignNew, bind_ok (ask_ok htok)]
    dsimp only
    rw [if_neg (not_not_intro hp)]
  rcases requireRoom_cases m with ⟨e, he, hr⟩ | ⟨hroom, hrok⟩
  · obtain ⟨e, he, hr⟩ := refuses_ask he hr
    exact .inl (refuses_map _ ⟨e, hgo.trans he, hr⟩)
  have hfree : m.heap.get? m.addresses.next = none := by
    rw [usedAfter, hgo, ← usedAfter, usedAfter_bind_ok (ask_ok hrok)] at hu
    refine hs.intact.fresh (Nat.le_trans (used_lt_usedAfter (fun a => ?_) m) hu)
    exact .bind (.onHeap _) fun _ => .bind (.rebind _ _ _ _) fun _ => .pure _
  obtain ⟨collected, m', hr, hreb⟩ := exists_rebind (.objectRef m.addresses.next) true
    (hs.object hfree ha) hf ht (by rw [hp]; rfl) rfl fun _ a ha => absurd ha List.not_mem_nil
  exact .inr ⟨_, _, map_ok _ (assignNew_ok hf ht hp hroom hfree hr),
    .assignNew hf ht hp hroom hfree hreb⟩

theorem resolves_enter (m : Memory) (name : String) : (enter name).Resolves m := by
  by_cases hd : m.maxFrames ≤ m.stack.depth
  · refine .inl (refuses_map _ ⟨.stackOverflow m.maxFrames, ?_, fun _ => by simp⟩)
    rw [Memory.enter_eq, if_pos hd]
  · refine .inr ⟨_, _, map_ok _ ?_, .enter (Nat.lt_of_not_le hd)⟩
    rw [Memory.enter_eq, if_neg hd]

theorem resolves_leave (hs : m.Sound []) : leave.Resolves m := by
  cases hp : m.stack.pop? with
  | none =>
      refine .inl (refuses_map _ ⟨.rootFrameExit m.stack.root.name, ?_, fun _ => by simp⟩)
      rw [Memory.leave, bind_ok (get_ok m), hp]
      rfl
  | some r =>
      obtain ⟨f, t⟩ := r
      obtain ⟨collected, h, hr, -, -⟩ := Heap.releaseAll_spec (h := m.heap) <|
        (hs.pop hp).balanced.congr fun a => by rw [List.append_nil]
      refine .inr ⟨.left f collected, _, map_ok (a := (f, collected)) _ ?_, .leave hp hr⟩
      rw [Memory.leave, bind_ok (get_ok m), hp]
      exact (bind_ok (onHeap_ok ((releaseEach_eq _ _).trans hr))).trans rfl

/-- **In a sound memory every operation refuses or is a step**, as long as at most `2 ^ 53`
addresses were handed out when it ends. -/
theorem resolves (op : Operation) (hs : m.Sound []) (ha : op.AddressFree)
    (hu : (op.after m).addresses.used ≤ pow2 53) : op.Resolves m := by
  rw [used_after] at hu
  cases op with
  | declareScalar id name type value => exact resolves_declareScalar m id name type value
  | declareNull id name type => exact resolves_declareNull m id name type
  | declareObject id name category fields =>
      rw [run, usedAfter_map] at hu
      exact resolves_declareObject hs hu
  | declareArray id name type elements =>
      rw [run, usedAfter_map] at hu
      exact resolves_declareArray hs ha hu
  | declareCopy id name type source => exact resolves_declareCopy hs
  | assign id target source => exact resolves_assign hs
  | assignLiteral id target source value => exact resolves_assignLiteral m id target source value
  | assignNull id target => exact resolves_assignNull hs
  | assignNew id target category fields =>
      rw [run, usedAfter_map] at hu
      exact resolves_assignNew hs ha hu
  | enter name => exact resolves_enter m name
  | leave => exact resolves_leave hs

theorem error?_of_run {op : Operation} {answer : Answer} {m' : Memory}
    (h : op.run m = .ok answer m') : op.error? m = none := by rw [error?, h]

theorem after_of_run {op : Operation} {answer : Answer} {m' : Memory}
    (h : op.run m = .ok answer m') : op.after m = m' := by rw [after, h]

/-- What is left after an operation that refuses or is a step. -/
theorem after_cases (op : Operation) (hs : m.Sound []) (ha : op.AddressFree)
    (hu : (op.after m).addresses.used ≤ pow2 53) :
    (∃ e, op.error? m = some e ∧ e.IsRefusal ∧ op.after m = m) ∨
      ∃ answer, op.error? m = none ∧ Step m op answer (op.after m) := by
  rcases op.resolves hs ha hu with ⟨e, he, hr⟩ | ⟨answer, m', hok, hstep⟩
  · exact .inl ⟨e, by rw [error?, he], hr, by rw [after, he]⟩
  · refine .inr ⟨answer, error?_of_run hok, ?_⟩
    rwa [after_of_run hok]

end Operation

/-! ### Runs -/

/-- What steps from sound memories keep is kept by runs, and runs keep the memory sound. -/
theorem Memory.Sound.runAll_induction {P : Memory → Prop} {C : Operation → Prop}
    (hfree : ∀ op, C op → op.AddressFree)
    (hstep : ∀ {m m' : Memory} {op : Operation} {answer : Answer}, m.Sound [] → P m → C op →
      Step m op answer m' → P m')
    {m : Memory} {ops : List Operation} (hs : m.Sound []) (hp : P m) (hc : ∀ op ∈ ops, C op)
    (hu : (m.runAll ops).addresses.used ≤ pow2 53) :
    (m.runAll ops).Sound [] ∧ P (m.runAll ops) := by
  induction ops generalizing m with
  | nil => exact ⟨hs, hp⟩
  | cons op ops ih =>
      have hafter := Nat.le_trans (used_le_runAll (op.after m) ops) hu
      have hop := hc op List.mem_cons_self
      have hkept : (op.after m).Sound [] ∧ P (op.after m) := by
        rcases op.after_cases hs (hfree op hop) hafter with ⟨e, -, -, he⟩ | ⟨answer, -, hst⟩
        · rw [he]
          exact ⟨hs, hp⟩
        · exact ⟨hst.sound hs (hfree op hop), hstep hs hp hop hst⟩
      exact ih hkept.1 hkept.2 (fun op' hop' => hc op' (List.mem_cons_of_mem _ hop')) hu

/-- **A run keeps the memory sound** if the values passed in hold no address. -/
theorem Memory.Sound.runAll {m : Memory} {ops : List Operation} (hs : m.Sound [])
    (ha : ∀ op ∈ ops, op.AddressFree) (hu : (m.runAll ops).addresses.used ≤ pow2 53) :
    (m.runAll ops).Sound [] :=
  (runAll_induction (P := fun _ => True) (fun _ h => h) (fun _ _ _ _ => trivial) hs trivial ha hu).1

end StackHeap.Store
