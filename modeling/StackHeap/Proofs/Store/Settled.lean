import StackHeap.Proofs.Store.Outcome

/-! # Settled slots

A slot is *settled* if writing its own value into it once more changes nothing: what it holds is
already in the form that its type uses (`Slot.Settled`).  Widening is done once
(`Value.widen_widen`), and every operation widens what it writes, so whatever it is called with and
however it ends, each slot afterwards is an old one, or settled with a name that the operation
declares or that was there before (`Operation.arises`).  Assigning a settled variable to itself
changes nothing (`Memory.assign_self`). -/

namespace StackHeap

theorem DeclaredType.accepts_self (t : DeclaredType) : t.accepts t = true := by
  cases t with
  | primitive p => simp [accepts, Primitive.accepts]
  | object category => simp [accepts]
  | array element => simp [accepts]

@[simp] theorem Value.widen_widen (p : Primitive) (v : Value) : (v.widen p).widen p = v.widen p := by
  cases v with
  | int n =>
      rw [widen_int]
      split
      · rfl
      · next hp => rw [widen_int, if_neg hp]
  | char c =>
      rw [widen_char]
      split
      · rfl
      · next hp =>
          split
          · rw [widen_int, if_neg hp]
          · next hi => rw [widen_char, if_neg hp, if_neg hi]
  | _ => rfl

namespace Store

/-- The slot holds its value in the form that its type uses. -/
def Slot.Settled (x : Slot) : Prop := x.valueAs x.type = x.value

namespace Slot.Settled

variable {a : Address} {name : String} {type : DeclaredType} {v : Value}

theorem valueAs (x : Slot) : Settled ⟨a, name, type, x.valueAs type⟩ := by
  unfold Settled Slot.valueAs
  dsimp only
  cases type.primitive? with
  | none => rfl
  | some p => exact Value.widen_widen p _

theorem widen (p : Primitive) (v : Value) : Settled ⟨a, name, .primitive p, v.widen p⟩ :=
  Value.widen_widen p v

theorem of_isReference (h : type.isReference = true) : Settled ⟨a, name, type, v⟩ := by
  cases type with
  | primitive p => cases h
  | object category => rfl
  | array element => rfl

end Slot.Settled

/-- A slot that is an old one, or settled with a name that is declared or that an old one has. -/
inductive Slot.Arises (old : List Slot) (declared : Option String) (y : Slot) : Prop where
  | kept (hy : y ∈ old)
  | declared (hs : y.Settled) (hd : declared = some y.name)
  | written (hs : y.Settled) {x : Slot} (hx : x ∈ old) (hn : x.name = y.name)

/-- The variable that an operation declares, if any. -/
def Operation.declared? : Operation → Option String
  | declareScalar _ name _ _ => some name
  | declareNull _ name _ => some name
  | declareObject _ name _ _ => some name
  | declareArray _ name _ _ => some name
  | declareCopy _ name _ _ => some name
  | _ => none

/-! ### What becomes of the slots -/

/-- What all slots satisfy before an operation, they satisfy after it, however it ends. -/
def Keeps {α : Type} (P : Slot → Prop) (op : MemoryM α) (m : Memory) : Prop :=
  (∀ y ∈ m.stack.slots, P y) →
    match op m with
    | .ok _ m' => ∀ y ∈ m'.stack.slots, P y
    | .error _ m' => ∀ y ∈ m'.stack.slots, P y

namespace Keeps

variable {α β : Type} {P : Slot → Prop} {m m' : Memory} {id : Nat} {name : String} {f : Frame}
  {x : Slot}

theorem pure (a : α) : Keeps P (Pure.pure a : MemoryM α) m := fun hp => hp

theorem throw (e : MemoryError) : Keeps P (MonadExcept.throw e : MemoryM α) m := fun hp => hp

theorem bind {op : MemoryM α} {k : α → MemoryM β} (ho : Keeps P op m)
    (hk : ∀ a m₁, op m = .ok a m₁ → Keeps P (k a) m₁) : Keeps P (op >>= k) m := by
  intro hp
  have hop := ho hp
  simp only [Bind.bind, EStateM.bind]
  cases hr : op m with
  | ok a m₁ =>
      rw [hr] at hop
      exact hk a m₁ hr hop
  | error e m₁ =>
      rw [hr] at hop
      exact hop

theorem map (g : α → β) {op : MemoryM α} (ho : Keeps P op m) : Keeps P (g <$> op) m :=
  bind ho fun a _ _ => pure (g a)

/-- A question is answered and the slots stay as they are. -/
theorem ask {question : Memory → Except MemoryError α} {k : α → MemoryM β}
    (hk : ∀ a, question m = .ok a → Keeps P (k a) m) : Keeps P (Memory.ask question >>= k) m := by
  intro hp
  simp only [Bind.bind, EStateM.bind, Memory.ask]
  cases hq : question m with
  | ok a => exact hk a hq hp
  | error e => exact hp

theorem onHeap {op : HeapM α} {k : α → MemoryM β} (hk : ∀ a h, Keeps P (k a) { m with heap := h }) :
    Keeps P (Memory.onHeap op >>= k) m := by
  intro hp
  simp only [Bind.bind, EStateM.bind, Memory.onHeap]
  cases op m.heap with
  | ok a h => exact hk a h hp
  | error e h => exact hp

theorem freshAddress {k : Address → MemoryM β}
    (hk : ∀ a, Keeps P (k a) { m with addresses := m.addresses.advance }) :
    Keeps P (Memory.freshAddress >>= k) m :=
  fun hp => hk _ hp

theorem requireFree {k : Unit → MemoryM α}
    (hk : ∀ f, m.stack.frame? id = some f → f.slot? name = none → Keeps P (k ()) m) :
    Keeps P (Memory.ask (·.requireFree id name) >>= k) m := by
  refine ask fun _ hq => ?_
  rcases m.requireFree_cases id name with ⟨e, he, -⟩ | ⟨f, hf, hn, -⟩
  · cases he.symm.trans hq
  · exact hk f hf hn

theorem lookup {k : Slot → MemoryM α}
    (hk : ∀ f x, m.stack.frame? id = some f → f.slot? name = some x → Keeps P (k x) m) :
    Keeps P (Memory.ask (·.lookup id name) >>= k) m := by
  refine ask fun y hq => ?_
  rcases m.lookup_cases id name with ⟨e, he, -⟩ | ⟨f, x, hf, hx, hok⟩
  · cases he.symm.trans hq
  · obtain rfl := Except.ok.inj (hok.symm.trans hq)
    exact hk f x hf hx

theorem pushSlot {type : DeclaredType} {value : Value} (hs : m.stack.WellFormed)
    (hf : m.stack.frame? id = some f) (hp : ∀ a, P ⟨a, name, type, value⟩) :
    Keeps P (Memory.pushSlot id name type value) m := by
  intro hold
  rw [Memory.pushSlot_ok hf]
  intro y hy
  rcases hs.mem_slots_push hf hy with hy | rfl
  · exact hold y hy
  · exact hp _

theorem overwrite {value : Value} (hs : m.stack.WellFormed) (hf : m.stack.frame? id = some f)
    (hx : f.slot? name = some x) (hp : P { x with value := value }) :
    Keeps P (Memory.overwrite id name value) m := by
  intro hold
  rw [Memory.overwrite_ok hf hx]
  intro y hy
  rcases hs.mem_slots_write hf hx hy with hy | rfl
  · exact hold y hy
  · exact hp

theorem rebind {value : Value} (hs : m.stack.WellFormed) (hf : m.stack.frame? id = some f)
    (hx : f.slot? name = some x) (hp : P { x with value := value }) (counted : Bool) :
    Keeps P (Memory.rebind id name value counted) m := by
  have hwrite : ∀ (h : Heap) (es : List Entry), Keeps P (do
      Memory.overwrite id name value
      Pure.pure es : MemoryM (List Entry)) { m with heap := h } := fun h es =>
    bind (overwrite (m := { m with heap := h }) hs hf hx hp) fun _ _ _ => pure es
  have hrest : ∀ (h : Heap) (es : List Entry), Keeps P (do
      if !counted then Memory.onHeap (Heap.retainAll value.referent?.toList)
      Memory.overwrite id name value
      Pure.pure es : MemoryM (List Entry)) { m with heap := h } := by
    intro h es
    cases counted with
    | true => exact hwrite h es
    | false => exact onHeap fun _ h' => hwrite h' es
  refine ask fun s _ => ?_
  dsimp only
  split
  · exact pure _
  · cases s.value.referent? with
    | none => exact hrest m.heap []
    | some a => exact onHeap fun es h => hrest h es

end Keeps

/-! ### What operations write -/

namespace Operation

open Slot

variable {m : Memory}

theorem keeps_declareScalar (hs : m.stack.WellFormed) (id : Nat) (name : String)
    (type : Primitive) (value : Value) :
    Keeps (Arises m.stack.slots (some name)) (declareScalar id name type value).run m := by
  refine .map _ (.requireFree fun f hf _ => ?_)
  dsimp only
  split
  · exact .throw _
  · exact .pushSlot hs hf fun a => .declared (.widen type value) rfl

theorem keeps_declareNull (hs : m.stack.WellFormed) (id : Nat) (name : String)
    (type : DeclaredType) :
    Keeps (Arises m.stack.slots (some name)) (declareNull id name type).run m := by
  refine .map _ (.requireFree fun f hf _ => ?_)
  cases hr : type.isReference with
  | false => exact .throw _
  | true => exact .pushSlot hs hf fun a => .declared (.of_isReference hr) rfl

theorem keeps_declareObject (hs : m.stack.WellFormed) (id : Nat) (name category : String)
    (fields : List Field) :
    Keeps (Arises m.stack.slots (some name)) (declareObject id name category fields).run m := by
  refine .map _ (.requireFree fun f hf _ => .ask fun _ _ => .freshAddress fun a => ?_)
  refine .onHeap fun _ h => .bind ?_ fun _ _ _ => .pure _
  exact .pushSlot hs hf fun a => .declared rfl rfl

theorem keeps_declareArray (hs : m.stack.WellFormed) (id : Nat) (name : String)
    (type : DeclaredType) (elements : List Element) :
    Keeps (Arises m.stack.slots (some name)) (declareArray id name type elements).run m := by
  refine .map _ (.requireFree fun f hf _ => .ask fun _ _ => .ask fun _ _ => .onHeap fun _ h => ?_)
  refine .freshAddress fun a => .onHeap fun _ h => .bind ?_ fun _ _ _ => .pure _
  exact .pushSlot hs hf fun a => .declared rfl rfl

theorem keeps_declareCopy (hs : m.stack.WellFormed) (id : Nat) (name : String)
    (type : DeclaredType) (source : String) :
    Keeps (Arises m.stack.slots (some name)) (declareCopy id name type source).run m := by
  refine .map _ (.requireFree fun f hf _ => .ask fun x _ => .ask fun _ _ => .onHeap fun _ h => ?_)
  exact .pushSlot hs hf fun a => .declared (.valueAs x) rfl

theorem keeps_assign (hs : m.stack.WellFormed) (id : Nat) (target source : String) :
    Keeps (Arises m.stack.slots none) (assign id target source).run m := by
  refine .map _ (.lookup fun f t hf ht => .ask fun x _ => .ask fun _ _ => ?_)
  have hold := Stack.mem_slots_of_slot? hf ht
  split
  · next hr => exact .rebind hs hf ht (.written (.of_isReference hr) hold rfl) _
  · exact .bind (.overwrite hs hf ht (.written (.valueAs x) hold rfl)) fun _ _ _ => .pure _

theorem keeps_assignLiteral (hs : m.stack.WellFormed) (id : Nat) (target : String)
    (source : Primitive) (value : Value) :
    Keeps (Arises m.stack.slots none) (assignLiteral id target source value).run m := by
  refine .map _ (.lookup fun f t hf ht => ?_)
  have hold := Stack.mem_slots_of_slot? hf ht
  split
  · next p hp =>
      have htype := DeclaredType.eq_of_primitive? (Option.filter_eq_some_iff.1 hp).1
      refine .overwrite hs hf ht (.written ?_ hold rfl)
      rw [htype]
      exact .widen p value
  · exact .throw _

theorem keeps_assignNull (hs : m.stack.WellFormed) (id : Nat) (target : String) :
    Keeps (Arises m.stack.slots none) (assignNull id target).run m := by
  refine .map _ (.lookup fun f t hf ht => ?_)
  have hold := Stack.mem_slots_of_slot? hf ht
  cases hr : t.type.isReference with
  | false => exact .throw _
  | true => exact .rebind hs hf ht (.written (.of_isReference hr) hold rfl) _

theorem keeps_assignNew (hs : m.stack.WellFormed) (id : Nat) (target category : String)
    (fields : List Field) :
    Keeps (Arises m.stack.slots none) (assignNew id target category fields).run m := by
  refine .map _ (.lookup fun f t hf ht => ?_)
  have hold := Stack.mem_slots_of_slot? hf ht
  dsimp only
  split
  · exact .throw _
  · next hp =>
      have hr : t.type.isReference = true := by
        rw [not_not.1 hp]
        rfl
      refine .ask fun _ _ => .freshAddress fun a => .onHeap fun _ h => .bind ?_ fun _ _ _ => .pure _
      have hnew : Arises m.stack.slots none { t with value := .objectRef a } :=
        .written (.of_isReference hr) hold rfl
      exact .rebind (m := { m with heap := h, addresses := m.addresses.advance }) hs hf ht hnew _

theorem keeps_enter (m : Memory) (name : String) :
    Keeps (Arises m.stack.slots none) (enter name).run m := by
  refine .map _ fun hold => ?_
  rw [Memory.enter_eq]
  split
  · next m' he =>
      split at he
      · cases he
      · cases he
        rwa [Stack.slots_push]
  · next e m' he =>
      split at he
      · cases he
        exact hold
      · cases he

theorem keeps_leave (m : Memory) : Keeps (Arises m.stack.slots none) leave.run m := by
  refine .map _ (.bind (fun hold => hold) fun m₁ m₂ hget => ?_)
  cases hget
  cases hp : m.stack.pop? with
  | none => exact .throw _
  | some r =>
      refine .onHeap fun es h => fun hold y hy => hold y ?_
      show y ∈ m.stack.slots
      rw [Stack.slots_of_pop? hp]
      exact List.mem_append_left _ hy

/-- **Every slot after an operation is an old one, or settled.** -/
theorem arises (hs : m.stack.WellFormed) (op : Operation) :
    ∀ y ∈ (op.after m).stack.slots, y.Arises m.stack.slots op.declared? := by
  have hkeeps : Keeps (Arises m.stack.slots op.declared?) op.run m := by
    cases op with
    | declareScalar id name type value => exact keeps_declareScalar hs id name type value
    | declareNull id name type => exact keeps_declareNull hs id name type
    | declareObject id name category fields => exact keeps_declareObject hs id name category fields
    | declareArray id name type elements => exact keeps_declareArray hs id name type elements
    | declareCopy id name type source => exact keeps_declareCopy hs id name type source
    | assign id target source => exact keeps_assign hs id target source
    | assignLiteral id target source value => exact keeps_assignLiteral hs id target source value
    | assignNull id target => exact keeps_assignNull hs id target
    | assignNew id target category fields => exact keeps_assignNew hs id target category fields
    | enter name => exact keeps_enter m name
    | leave => exact keeps_leave m
  have hafter := hkeeps fun y hy => .kept hy
  unfold after
  cases hr : op.run m with
  | ok answer m' =>
      rw [hr] at hafter
      exact hafter
  | error e m' =>
      rw [hr] at hafter
      exact hafter

end Operation

/-! ### Self-assignment -/

/-- A name that is used once has its slot. -/
theorem Frame.slot?_of_mem {f : Frame} {x : Slot} (hn : (f.slots.map Slot.name).Nodup)
    (hx : x ∈ f.slots) : f.slot? x.name = some x := by
  cases hy : f.slot? x.name with
  | none => exact absurd (List.mem_map_of_mem hx) (Frame.not_mem_names_of_slot? hy)
  | some y =>
      have hyx := List.inj_on_of_nodup_map hn (Frame.mem_of_slot? hy) hx (Frame.name_of_slot? hy)
      rw [hyx]

theorem Frame.write_self {f : Frame} {name : String} {x : Slot}
    (hn : (f.slots.map Slot.name).Nodup) (hx : f.slot? name = some x) :
    f.write name x.value = f := by
  obtain ⟨l, r, hl, hw⟩ := Frame.exists_slots_write hn hx x.value
  have hslots : (f.write name x.value).slots = f.slots := hw.trans hl.symm
  exact congrArg (fun slots => { f with slots := slots }) hslots

/-- Changes that do the same to their frame do the same to the stack. -/
theorem Stack.WellFormed.update_congr {s : Stack} {id : Nat} {f : Frame} {g h : Frame → Frame}
    (hs : s.WellFormed) (hf : s.frame? id = some f) (hgh : g f = h f) :
    s.update id g = s.update id h := by
  have hchange : ∀ y ∈ s.frames, (if y.id = id then g y else y) = if y.id = id then h y else y := by
    intro y hy
    split
    · next hid =>
        rw [hs.eq_of_id (Stack.mem_of_frame? hf) hy (hid.trans (Stack.id_of_frame? hf).symm), hgh]
    · rfl
  unfold Stack.update
  dsimp only
  rw [hchange s.root List.mem_cons_self,
    List.map_congr_left fun y hy => hchange y (List.mem_cons_of_mem _ hy)]

@[simp] theorem Stack.update_id (s : Stack) (id : Nat) : s.update id (fun f => f) = s := by
  simp only [Stack.update, ite_self, List.map_id']

namespace Memory

variable {m : Memory} {id : Nat} {name : String} {f : Frame} {x : Slot}

theorem written_self (hs : m.stack.WellFormed) (hf : m.stack.frame? id = some f)
    (hx : f.slot? name = some x) : m.written id name x.value = m := by
  have hframe := Frame.write_self (hs.names f (Stack.mem_of_frame? hf)) hx
  unfold written
  rw [hs.update_congr (h := fun f => f) hf hframe, Stack.update_id]

/-- **Assigning a settled variable to itself changes nothing.** -/
theorem assign_self (hs : m.stack.WellFormed) (hf : m.stack.frame? id = some f)
    (hx : f.slot? name = some x) (hset : x.Settled) :
    Memory.assign id name name m = .ok [] m := by
  have hlook := lookup_ok hf hx
  have hacc : requireAccepts name x.type x.type = .ok () := if_pos (DeclaredType.accepts_self _)
  rw [Memory.assign, bind_ok (ask_ok hlook), bind_ok (ask_ok hlook), bind_ok (ask_ok hacc)]
  split
  · exact rebind_same hf hx rfl false
  · rw [hset]
    have hwrite := overwrite_ok hf hx x.value
    rw [written_self hs hf hx] at hwrite
    exact bind_ok hwrite

end Memory

end Store

end StackHeap
