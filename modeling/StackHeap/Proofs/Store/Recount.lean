import StackHeap.Proofs.Store.Exact
import StackHeap.Proofs.Store.Moves
import StackHeap.Proofs.Store.Typed

/-! # What the recount decides

The recount compares counts with holders, and asks of a slot only whether it is of one kind with its
value, reference or not.  This is what it comes to after any operations, whatever they are called
with.

* **Kinds.**  An operation puts into a slot of a reference type nothing but null, the entry that it
  has made for it, or a copy from a slot of the same type, and into a slot of a primitive type no
  reference (`Stack.Kinded`, `Operation.keepsKinds`).  So kinds never differ, and the recount is one
  of counts and missing entries (`Memory.fault?_eq_none_iff_counted`).
* **Foreign values.**  A value passed in for a primitive type is only required not to be a
  reference.  One of another primitive type gets into the slot, and the recount lets it pass
  (`Slot.IsForeign`). -/

namespace StackHeap

/-! ### Fitting values -/

/-- Whether a value is in the form that a primitive type uses. -/
def Primitive.fits (p : Primitive) : Value → Bool
  | .bool _ => p = boolean
  | .char _ => p = char
  | .text _ => p = string
  | .int _ => p.isIntegral
  | .float _ => p.isFloating
  | _ => false

namespace DeclaredType

/-- Whether a value fits a type: a primitive type in its form, and a type of references if it is
one of its references or null. -/
def fits : DeclaredType → Value → Bool
  | primitive p, v => p.fits v
  | object _, .objectRef _ => true
  | array _, .arrayRef _ => true
  | _, v => v = .null

/-- What operations put into slots of a type. -/
structure Takes (t : DeclaredType) (v : Value) : Prop where
  kind : t.isReference = v.isReference
  fits : t.isReference = true → t.fits v = true

namespace Takes

variable {t : DeclaredType} {p : Primitive} {v : Value}

theorem primitive (hv : v.isReference = false) : (DeclaredType.primitive p).Takes v where
  kind := hv.symm
  fits h := by cases h

theorem null (ht : t.isReference = true) : t.Takes .null where
  kind := ht
  fits _ := by cases t <;> first | rfl | cases ht

theorem widen (hv : v.isReference = false) : (DeclaredType.primitive p).Takes (v.widen p) :=
  primitive (by rw [Value.isReference_widen, hv])

/-- What a slot of an accepted type holds may be copied. -/
theorem valueAs {x : Store.Slot} (ha : t.accepts x.type = true) (hx : x.type.Takes x.value) :
    t.Takes (x.valueAs t) := by
  have hkind := DeclaredType.isReference_eq_of_accepts ha
  refine ⟨by rw [Store.Slot.isReference_valueAs, hkind, hx.kind], fun ht => ?_⟩
  obtain rfl := eq_of_accepts ha ht
  have hvalue : x.valueAs x.type = x.value := by
    unfold Store.Slot.valueAs
    cases hp : x.type.primitive? with
    | none => rfl
    | some q =>
        rw [eq_of_primitive? hp] at ht
        cases ht
  rw [hvalue]
  exact hx.fits ht

end Takes

end DeclaredType

namespace Store

open DeclaredType (Takes)

/-- A slot of a primitive type that holds a value of another primitive type. -/
structure Slot.IsForeign (x : Slot) : Prop where
  type : x.type.isReference = false
  value : x.value.isReference = false
  misfit : x.type.fits x.value = false

theorem Slot.fits_or_isForeign {x : Slot} (h : x.type.Takes x.value) :
    x.type.fits x.value = true ∨ x.IsForeign := by
  cases ht : x.type.isReference with
  | true => exact .inl (h.fits ht)
  | false =>
      cases hf : x.type.fits x.value with
      | true => exact .inl rfl
      | false => exact .inr ⟨ht, h.kind ▸ ht, hf⟩

/-! ### Kinds on the stack -/

/-- Every slot of the stack holds what operations put into slots of its type. -/
structure Stack.Kinded (s : Stack) : Prop where
  wellFormed : s.WellFormed
  takes : ∀ x ∈ s.slots, x.type.Takes x.value

namespace Stack.Kinded

variable {s t : Stack} {id : Nat} {name : String} {f : Frame} {x : Slot} {v : Value}

theorem new (rootName : String) : (Stack.new rootName).Kinded where
  wellFormed := .new rootName
  takes _ hx := absurd hx List.not_mem_nil

theorem declare (hs : s.Kinded) (hf : s.frame? id = some f) (hn : f.slot? x.name = none)
    (hx : x.type.Takes x.value) : (s.update id (·.push x)).Kinded where
  wellFormed := hs.wellFormed.declare hf hn
  takes y hy := by
    rcases hs.wellFormed.mem_slots_push hf hy with hy | rfl
    · exact hs.takes y hy
    · exact hx

theorem write (hs : s.Kinded) (hf : s.frame? id = some f) (hx : f.slot? name = some x)
    (hv : x.type.Takes v) : (s.update id (·.write name v)).Kinded where
  wellFormed := hs.wellFormed.write hf name v
  takes y hy := by
    rcases hs.wellFormed.mem_slots_write hf hx hy with hy | rfl
    · exact hs.takes y hy
    · exact hv

theorem push (hs : s.Kinded) (name : String) : (s.push name).Kinded where
  wellFormed := hs.wellFormed.push name
  takes x hx := hs.takes x (by rwa [Stack.slots_push] at hx)

theorem pop (hs : s.Kinded) (hp : s.pop? = some (f, t)) : t.Kinded where
  wellFormed := hs.wellFormed.pop hp
  takes x hx := hs.takes x (by rw [Stack.slots_of_pop? hp]; exact List.mem_append_left _ hx)

end Stack.Kinded

/-! ### What operations put on the stack -/

namespace Memory

variable {α β : Type} {m m' : Memory} {op : MemoryM α} {k : α → MemoryM β} {id : Nat}
  {name : String} {f : Frame} {x : Slot} {type : DeclaredType} {value : Value}

/-- The stack at the end of an operation, carried out or not. -/
def stackAfter (op : MemoryM α) (m : Memory) : Stack :=
  match op m with
  | .ok _ m' => m'.stack
  | .error _ m' => m'.stack

/-- An operation puts nothing of a wrong kind into a slot, carried out or not. -/
def KeepsKinds (op : MemoryM α) (m : Memory) : Prop := m.stack.Kinded → (stackAfter op m).Kinded

namespace KeepsKinds

theorem of_ok {a : α} (ho : op m = .ok a m') (hk : m.stack.Kinded → m'.stack.Kinded) :
    KeepsKinds op m := by
  unfold KeepsKinds stackAfter
  rw [ho]
  exact hk

theorem of_refuses (ho : Refuses op m) : KeepsKinds op m := by
  obtain ⟨e, he, -⟩ := ho
  unfold KeepsKinds stackAfter
  rw [he]
  exact id

theorem pure (a : α) (m : Memory) : KeepsKinds (Pure.pure a) m := of_ok rfl id

theorem bind (ho : KeepsKinds op m) (hk : ∀ a m', KeepsKinds (k a) m') :
    KeepsKinds (op >>= k) m := by
  intro hs
  have hop := ho hs
  unfold stackAfter at hop ⊢
  cases hm : op m with
  | ok a m' =>
      rw [hm] at hop
      rw [Memory.bind_ok hm]
      exact hk a m' hop
  | error e m' =>
      rw [hm] at hop
      rw [Memory.bind_error hm]
      exact hop

theorem map (g : α → β) (ho : KeepsKinds op m) : KeepsKinds (g <$> op) m :=
  bind ho fun a m' => pure (g a) m'

/-- The operation goes on with the same stack. -/
theorem bind_ok {a : α} (ho : op m = .ok a m') (hs : m'.stack = m.stack)
    (hk : KeepsKinds (k a) m') : KeepsKinds (op >>= k) m := by
  unfold KeepsKinds stackAfter at hk ⊢
  rw [Memory.bind_ok ho]
  rwa [hs] at hk

theorem onHeap_bind {op : HeapM α} (hk : ∀ a h, KeepsKinds (k a) { m with heap := h }) :
    KeepsKinds (onHeap op >>= k) m := by
  cases hop : op m.heap with
  | ok a h => exact bind_ok (onHeap_ok hop) rfl (hk a h)
  | error e h =>
      unfold KeepsKinds stackAfter
      rw [Memory.bind_error (onHeap_error hop)]
      exact id

theorem freshAddress_bind {k : Address → MemoryM β}
    (hk : ∀ a supply, KeepsKinds (k a) { m with addresses := supply }) :
    KeepsKinds (freshAddress >>= k) m := bind_ok (freshAddress_ok m) rfl (hk _ _)

theorem requireFree {k : Unit → MemoryM β}
    (hk : ∀ f, m.stack.frame? id = some f → f.slot? name = none → KeepsKinds (k ()) m) :
    KeepsKinds (ask (·.requireFree id name) >>= k) m := by
  rcases requireFree_cases m id name with ⟨e, he, hr⟩ | ⟨f, hf, hn, hok⟩
  · exact of_refuses (refuses_ask he hr)
  · exact bind_ok (ask_ok hok) rfl (hk f hf hn)

theorem requireRoom {k : Unit → MemoryM β} (hk : KeepsKinds (k ()) m) :
    KeepsKinds (ask (·.requireRoom) >>= k) m := by
  rcases requireRoom_cases m with ⟨e, he, hr⟩ | ⟨-, hok⟩
  · exact of_refuses (refuses_ask he hr)
  · exact bind_ok (ask_ok hok) rfl hk

theorem lookup {k : Slot → MemoryM β}
    (hk : ∀ f x, m.stack.frame? id = some f → f.slot? name = some x → KeepsKinds (k x) m) :
    KeepsKinds (ask (·.lookup id name) >>= k) m := by
  rcases lookup_cases m id name with ⟨e, he, hr⟩ | ⟨f, x, hf, hx, hok⟩
  · exact of_refuses (refuses_ask he hr)
  · exact bind_ok (ask_ok hok) rfl (hk f x hf hx)

theorem requireAccepts {target : String} {source : DeclaredType} {k : Unit → MemoryM β}
    (hk : type.accepts source = true → KeepsKinds (k ()) m) :
    KeepsKinds (ask (fun _ => requireAccepts target type source) >>= k) m := by
  rcases requireAccepts_cases target type source with ⟨e, he, hr⟩ | ⟨ha, hok⟩
  · exact of_refuses (refuses_ask he hr)
  · exact bind_ok (ask_ok hok) rfl (hk ha)

theorem elementValues {array : String} {elements : List Element} {k : List Value → MemoryM β}
    (hf : m.stack.frame? id = some f) (hk : ∀ values, KeepsKinds (k values) m) :
    KeepsKinds (ask (·.elementValues id array type 0 elements) >>= k) m := by
  rcases elementValues_cases hf array type 0 elements with ⟨e, he, hr⟩ | ⟨values, hok, -⟩
  · exact of_refuses (refuses_ask he hr)
  · exact bind_ok (ask_ok hok) rfl (hk values)

theorem pushSlot (hf : m.stack.frame? id = some f) (hn : f.slot? name = none)
    (hv : m.stack.Kinded → type.Takes value) : KeepsKinds (Memory.pushSlot id name type value) m :=
  of_ok (pushSlot_ok hf name type value) fun hs =>
    hs.declare (x := ⟨m.addresses.next, name, type, value⟩) hf hn (hv hs)

/-- A new entry goes into a new slot. -/
theorem construction {contents : Contents} {reference : Address → Value}
    (hf : m.stack.frame? id = some f) (hn : f.slot? name = none)
    (hv : ∀ a, type.Takes (reference a)) :
    KeepsKinds (do
      let a ← freshAddress
      onHeap (Heap.allocate a type contents)
      let _ ← Memory.pushSlot id name type (reference a)
      return a) m := by
  refine .freshAddress_bind fun a supply => .onHeap_bind fun _ h => ?_
  have hpush : KeepsKinds (Memory.pushSlot id name type (reference a))
      { m with heap := h, addresses := supply } := .pushSlot hf hn fun _ => hv a
  exact hpush.bind fun _ m' => .pure a m'

theorem overwrite (hf : m.stack.frame? id = some f) (hx : f.slot? name = some x)
    (hv : m.stack.Kinded → x.type.Takes value) : KeepsKinds (Memory.overwrite id name value) m :=
  of_ok (overwrite_ok hf hx value) fun hs => hs.write hf hx (hv hs)

theorem rebind (hf : m.stack.frame? id = some f) (hx : f.slot? name = some x)
    (hv : m.stack.Kinded → x.type.Takes value) (counted : Bool) :
    KeepsKinds (Memory.rebind id name value counted) m := by
  have hwrite : ∀ (h : Heap) (es : List Entry), KeepsKinds (do
      Memory.overwrite id name value
      Pure.pure es : MemoryM (List Entry)) { m with heap := h } := by
    intro h es
    have hover : KeepsKinds (Memory.overwrite id name value) { m with heap := h } :=
      .overwrite hf hx hv
    exact hover.bind fun _ m' => .pure es m'
  have hrest : ∀ (h : Heap) (es : List Entry), KeepsKinds (do
      if !counted then onHeap (Heap.retainAll value.referent?.toList)
      Memory.overwrite id name value
      Pure.pure es : MemoryM (List Entry)) { m with heap := h } := by
    intro h es
    cases counted with
    | true => exact hwrite h es
    | false => exact .onHeap_bind fun _ h' => hwrite h' es
  refine bind_ok (ask_ok (lookup_ok hf hx)) rfl ?_
  dsimp only
  split
  · exact .pure [] m
  · cases x.value.referent? with
    | none => exact hrest m.heap []
    | some a => exact .onHeap_bind fun es h => hrest h es

end KeepsKinds

end Memory

namespace Operation

open Memory

variable {m : Memory}

theorem keepsKinds_declareScalar (m : Memory) (id : Nat) (name : String) (type : Primitive)
    (value : Value) : KeepsKinds (declareScalar id name type value).run m := by
  refine .map _ (.requireFree fun f hf hn => ?_)
  cases hv : value.isReference with
  | true =>
      exact .of_refuses ⟨.incompatible name (.primitive type) .reference, rfl, fun _ => by simp⟩
  | false => exact .pushSlot hf hn fun _ => .widen hv

theorem keepsKinds_declareNull (m : Memory) (id : Nat) (name : String) (type : DeclaredType) :
    KeepsKinds (declareNull id name type).run m := by
  refine .map _ (.requireFree fun f hf hn => ?_)
  cases ht : type.isReference with
  | false => exact .of_refuses ⟨.incompatible name type .null, rfl, fun _ => by simp⟩
  | true => exact .pushSlot hf hn fun _ => .null ht

theorem keepsKinds_declareObject (m : Memory) (id : Nat) (name category : String)
    (fields : List Field) : KeepsKinds (declareObject id name category fields).run m := by
  refine .map _ (.requireFree fun f hf hn => .requireRoom ?_)
  exact .construction hf hn fun a => ⟨rfl, fun _ => rfl⟩

theorem keepsKinds_declareArray (m : Memory) (id : Nat) (name : String) (type : DeclaredType)
    (elements : List Element) : KeepsKinds (declareArray id name type elements).run m := by
  refine .map _ (.requireFree fun f hf hn => .requireRoom ?_)
  refine .elementValues hf fun values => .onHeap_bind fun _ h => ?_
  exact .construction (m := { m with heap := h }) hf hn fun a => ⟨rfl, fun _ => rfl⟩

theorem keepsKinds_declareCopy (m : Memory) (id : Nat) (name : String) (type : DeclaredType)
    (source : String) : KeepsKinds (declareCopy id name type source).run m := by
  refine .map _ (.requireFree fun f hf hn => .lookup fun f' x hf' hx => ?_)
  refine .requireAccepts fun ha => ?_
  refine .onHeap_bind fun _ h => .pushSlot (m := { m with heap := h }) hf hn fun hs => ?_
  exact .valueAs ha (hs.takes x (Stack.mem_slots_of_slot? hf' hx))

theorem keepsKinds_assign (m : Memory) (id : Nat) (target source : String) :
    KeepsKinds (assign id target source).run m := by
  refine .map _ (.lookup fun f t hf ht => .lookup fun f' x hf' hx => .requireAccepts fun ha => ?_)
  have hcopy : m.stack.Kinded → t.type.Takes (x.valueAs t.type) :=
    fun hs => .valueAs ha (hs.takes x (Stack.mem_slots_of_slot? hf' hx))
  cases htype : t.type.isReference with
  | true =>
      refine .rebind hf ht (fun hs => ?_) false
      rw [DeclaredType.eq_of_accepts ha htype]
      exact hs.takes x (Stack.mem_slots_of_slot? hf' hx)
  | false => exact .bind (.overwrite hf ht hcopy) fun _ m' => .pure [] m'

theorem keepsKinds_assignLiteral (m : Memory) (id : Nat) (target : String) (source : Primitive)
    (value : Value) : KeepsKinds (assignLiteral id target source value).run m := by
  refine .map _ (.lookup fun f t hf ht => ?_)
  cases hp : t.type.primitive?.filter fun p => p.accepts source && !value.isReference with
  | none => exact .of_refuses ⟨_, rfl, fun _ => by simp⟩
  | some p =>
      obtain ⟨htype, hchecked⟩ := Option.filter_eq_some_iff.1 hp
      rw [Bool.and_eq_true, Bool.not_eq_true'] at hchecked
      refine .overwrite hf ht fun _ => ?_
      rw [DeclaredType.eq_of_primitive? htype]
      exact .widen hchecked.2

theorem keepsKinds_assignNull (m : Memory) (id : Nat) (target : String) :
    KeepsKinds (assignNull id target).run m := by
  refine .map _ (.lookup fun f t hf ht => ?_)
  cases htype : t.type.isReference with
  | false => exact .of_refuses ⟨.incompatible target t.type .null, rfl, fun _ => by simp⟩
  | true => exact .rebind hf ht (fun _ => .null htype) false

theorem keepsKinds_assignNew (m : Memory) (id : Nat) (target category : String)
    (fields : List Field) : KeepsKinds (assignNew id target category fields).run m := by
  refine .map _ (.lookup fun f t hf ht => ?_)
  dsimp only
  by_cases hp : t.type = .object category
  · rw [if_neg (not_not_intro hp)]
    refine .requireRoom (.freshAddress_bind fun a supply => .onHeap_bind fun _ h => ?_)
    have hrebind : KeepsKinds (Memory.rebind id target (.objectRef a) true)
        { m with heap := h, addresses := supply } := by
      refine .rebind (m := { m with heap := h, addresses := supply }) hf ht (fun _ => ?_) true
      rw [hp]
      exact ⟨rfl, fun _ => rfl⟩
    exact hrebind.bind fun _ m' => .pure a m'
  · rw [if_pos hp]
    exact .of_refuses ⟨_, rfl, fun _ => by simp⟩

theorem keepsKinds_enter (m : Memory) (name : String) : KeepsKinds (enter name).run m := by
  refine .map _ ?_
  by_cases hd : m.maxFrames ≤ m.stack.depth
  · refine .of_refuses ⟨.stackOverflow m.maxFrames, ?_, fun _ => by simp⟩
    rw [Memory.enter_eq, if_pos hd]
  · have hok : Memory.enter name m = .ok m.stack.nextId { m with stack := m.stack.push name } := by
      rw [Memory.enter_eq, if_neg hd]
    exact .of_ok hok fun hs => hs.push name

theorem keepsKinds_leave (m : Memory) : KeepsKinds leave.run m := by
  refine .map _ (.bind_ok (get_ok m) rfl ?_)
  cases hp : m.stack.pop? with
  | none => exact .of_refuses ⟨.rootFrameExit m.stack.root.name, rfl, fun _ => by simp⟩
  | some r =>
      obtain ⟨f, t⟩ := r
      exact .onHeap_bind fun es h => .of_ok rfl fun hs => hs.pop hp

/-- **An operation puts nothing of a wrong kind into a slot.** -/
theorem keepsKinds (op : Operation) (m : Memory) : KeepsKinds op.run m := by
  cases op with
  | declareScalar id name type value => exact keepsKinds_declareScalar m id name type value
  | declareNull id name type => exact keepsKinds_declareNull m id name type
  | declareObject id name category fields =>
      exact keepsKinds_declareObject m id name category fields
  | declareArray id name type elements => exact keepsKinds_declareArray m id name type elements
  | declareCopy id name type source => exact keepsKinds_declareCopy m id name type source
  | assign id target source => exact keepsKinds_assign m id target source
  | assignLiteral id target source value => exact keepsKinds_assignLiteral m id target source value
  | assignNull id target => exact keepsKinds_assignNull m id target
  | assignNew id target category fields => exact keepsKinds_assignNew m id target category fields
  | enter name => exact keepsKinds_enter m name
  | leave => exact keepsKinds_leave m

theorem kinded_after (op : Operation) (hs : m.stack.Kinded) : (op.after m).stack.Kinded := by
  have h := op.keepsKinds m hs
  unfold stackAfter at h
  unfold after
  cases hrun : op.run m <;> rw [hrun] at h <;> exact h

end Operation

namespace Memory

variable {m : Memory} {config : Config} {a : Address}

/-- Nor does a run. -/
theorem kinded_runAll (hs : m.stack.Kinded) (ops : List Operation) :
    (m.runAll ops).stack.Kinded := by
  induction ops generalizing m with
  | nil => exact hs
  | cons op ops ih => exact ih (op.kinded_after hs)

/-! ### The verdict -/

/-- The number of fields and elements of live entries that hold an address. -/
def contentHolders (m : Memory) (a : Address) : Nat :=
  (m.heap.entries.flatMap (·.contents.values)).countP fun v => v.referent? == some a

/-- The counts are those of the holders, and nothing held is missing. -/
structure Counted (m : Memory) : Prop where
  positive : ∀ e ∈ m.heap.entries, 1 ≤ e.refs
  counted : ∀ e ∈ m.heap.entries, e.refs = m.slotHolders e.address + m.contentHolders e.address
  slots : ∀ x ∈ m.stack.slots, ∀ a, x.value.referent? = some a →
    ∃ e ∈ m.heap.entries, e.address = a
  contents : ∀ holder ∈ m.heap.entries, ∀ v ∈ holder.contents.values, ∀ a,
    v.referent? = some a → ∃ e ∈ m.heap.entries, e.address = a

theorem contentReferences_eq (m : Memory) :
    m.heap.references = (m.heap.entries.flatMap (·.contents.values)).filterMap Value.referent? := by
  rw [List.filterMap_flatMap]
  rfl

theorem count_holders (m : Memory) (a : Address) :
    m.holders.count a = m.slotHolders a + m.contentHolders a := by
  rw [Sound.holders_eq, List.count_append, Sound.slotHolders_eq, contentReferences_eq,
    List.count_filterMap]
  rfl

theorem mem_holders_iff (m : Memory) (a : Address) :
    a ∈ m.holders ↔ (∃ x ∈ m.stack.slots, x.value.referent? = some a) ∨
      ∃ holder ∈ m.heap.entries, ∃ v ∈ holder.contents.values, v.referent? = some a := by
  rw [Sound.holders_eq, List.mem_append, Stack.references, Heap.references]
  simp only [List.mem_filterMap, List.mem_flatMap, Contents.references]

theorem contains_iff (m : Memory) (a : Address) :
    m.heap.contains a = true ↔ ∃ e ∈ m.heap.entries, e.address = a := by
  rw [Heap.contains, Heap.get?, List.find?_isSome]
  simp only [decide_eq_true_eq]

/-- **On a stack of kind the recount is about counts and missing entries only.** -/
theorem fault?_eq_none_iff_counted (hs : m.stack.Kinded) : m.fault? = none ↔ m.Counted := by
  have hkinds : ∀ x ∈ m.stack.slots, misfits x = false := by
    intro x hx
    rw [misfits, (hs.takes x hx).kind, bne_self_eq_false]
  rw [fault?_eq_none_iff, and_iff_right hkinds]
  simp only [contains_iff, mem_holders_iff, count_holders]
  constructor
  · rintro ⟨hlive, hrefs⟩
    exact {
      positive := fun e he => Nat.pos_of_ne_zero (hrefs e he).1
      counted := fun e he => (hrefs e he).2
      slots := fun x hx a ha => hlive a (.inl ⟨x, hx, ha⟩)
      contents := fun holder hh v hv a ha => hlive a (.inr ⟨holder, hh, v, hv, ha⟩) }
  · intro hc
    refine ⟨?_, fun e he => ⟨Nat.pos_iff_ne_zero.1 (hc.positive e he), hc.counted e he⟩⟩
    rintro a (⟨x, hx, ha⟩ | ⟨holder, hh, v, hv, ha⟩)
    · exact hc.slots x hx a ha
    · exact hc.contents holder hh v hv a ha

end Memory

/-- **What the recount decides.**  After any operations, with any arguments, the recount finds no
fault exactly if every count is positive and the number of the slots, fields and elements that hold
the address, nothing held is missing, and every slot holds a value that fits its type or one of
another primitive type in a primitive type.  Nothing else is in a slot even if there is a fault. -/
theorem recount_decides (config : Config) (ops : List Operation) :
    let m := (Memory.new config).runAll ops
    (m.fault? = none ↔
      m.Counted ∧ ∀ x ∈ m.stack.slots, x.type.fits x.value = true ∨ x.IsForeign) ∧
      ∀ x ∈ m.stack.slots, x.type.fits x.value = true ∨ x.IsForeign := by
  intro m
  have hs : m.stack.Kinded := Memory.kinded_runAll (m := Memory.new config) (.new _) ops
  have hslots : ∀ x ∈ m.stack.slots, x.type.fits x.value = true ∨ x.IsForeign :=
    fun x hx => Slot.fits_or_isForeign (hs.takes x hx)
  have hverdict : m.fault? = none ↔ m.Counted := Memory.fault?_eq_none_iff_counted hs
  exact ⟨hverdict.trans (and_iff_left hslots).symm, hslots⟩

/-- The recount does not see that a text does not fit type `int`. -/
theorem recount_overlooks_foreign :
    let m := (Memory.new {}).runAll [.declareScalar 0 "x" .int (.text "a")]
    ¬ (m.fault? = none ↔ m.Counted ∧ ∀ x ∈ m.stack.slots, x.type.fits x.value = true) := by
  intro m h
  have hfault : m.fault? = none := by decide +kernel
  have hmisfit : ¬ ∀ x ∈ m.stack.slots, x.type.fits x.value = true := by decide +kernel
  exact hmisfit (h.1 hfault).2

end Store

end StackHeap
