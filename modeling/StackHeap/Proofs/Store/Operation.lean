import StackHeap.Store.Memory

/-! # Runs of memory operations

The operations of the memory as data, so that a run is a list.  An operation answers or fails, and
in both cases leaves a memory (`Operation.after`); a run goes on from there (`Memory.runAll`).

Addresses handed out are never taken back (`used_le_after`), so a bound on the count at the end of
a run holds all through it. -/

namespace StackHeap.Store

/-- The operations on the memory, with what is passed to them. -/
inductive Operation where
  | declareScalar (id : Nat) (name : String) (type : Primitive) (value : Value)
  | declareNull (id : Nat) (name : String) (type : DeclaredType)
  | declareObject (id : Nat) (name category : String) (fields : List Field)
  | declareArray (id : Nat) (name : String) (elementType : DeclaredType) (elements : List Element)
  | declareCopy (id : Nat) (name : String) (type : DeclaredType) (source : String)
  | assign (id : Nat) (target source : String)
  | assignLiteral (id : Nat) (target : String) (source : Primitive) (value : Value)
  | assignNull (id : Nat) (target : String)
  | assignNew (id : Nat) (target category : String) (fields : List Field)
  | enter (name : String)
  | leave
deriving DecidableEq, Repr

/-- What an operation returns. -/
inductive Answer where
  | address (a : Address)
  | collected (entries : List Entry)
  | done
  | entered (id : Nat)
  | left (frame : Frame) (collected : List Entry)
deriving DecidableEq, Repr

namespace Operation

/-- Carries out an operation. -/
def run : Operation → MemoryM Answer
  | declareScalar id name type value => .address <$> Memory.declareScalar id name type value
  | declareNull id name type => .address <$> Memory.declareNull id name type
  | declareObject id name category fields =>
    .address <$> Memory.declareObject id name category fields
  | declareArray id name elementType elements =>
    .address <$> Memory.declareArray id name elementType elements
  | declareCopy id name type source => .address <$> Memory.declareCopy id name type source
  | assign id target source => .collected <$> Memory.assign id target source
  | assignLiteral id target source value =>
    (fun _ => .done) <$> Memory.assignLiteral id target source value
  | assignNull id target => .collected <$> Memory.assignNull id target
  | assignNew id target category fields => .address <$> Memory.assignNew id target category fields
  | enter name => .entered <$> Memory.enter name
  | leave => (fun r => .left r.1 r.2) <$> Memory.leave

/-- The memory after an operation, whether it was carried out or failed. -/
def after (op : Operation) (m : Memory) : Memory :=
  match op.run m with
  | .ok _ m' => m'
  | .error _ m' => m'

/-- The error that an operation fails with. -/
def error? (op : Operation) (m : Memory) : Option MemoryError :=
  match op.run m with
  | .ok _ _ => none
  | .error e _ => some e

/-- The values passed to an operation. -/
def values : Operation → List Value
  | declareScalar _ _ _ value => [value]
  | declareObject _ _ _ fields => fields.map (·.value)
  | declareArray _ _ _ elements => elements.filterMap fun
    | .value v => some v
    | .variable _ => none
  | assignLiteral _ _ _ value => [value]
  | assignNew _ _ _ fields => fields.map (·.value)
  | _ => []

/-- No value passed to the operation holds a heap address. -/
def AddressFree (op : Operation) : Prop := ∀ v ∈ op.values, v.referent? = none

instance (op : Operation) : Decidable op.AddressFree :=
  inferInstanceAs (Decidable (∀ v ∈ op.values, v.referent? = none))

/-- The number of the frame that the operation looks into, if any. -/
def frame? : Operation → Option Nat
  | declareScalar id _ _ _ => some id
  | declareNull id _ _ => some id
  | declareObject id _ _ _ => some id
  | declareArray id _ _ _ => some id
  | declareCopy id _ _ _ => some id
  | assign id _ _ => some id
  | assignLiteral id _ _ _ => some id
  | assignNull id _ => some id
  | assignNew id _ _ _ => some id
  | enter _ => none
  | leave => none

end Operation

/-- The memory after operations in turn. -/
def Memory.runAll (m : Memory) (ops : List Operation) : Memory :=
  ops.foldl (fun m op => op.after m) m

theorem Memory.runAll_append (m : Memory) (ops more : List Operation) :
    m.runAll (ops ++ more) = (m.runAll ops).runAll more := List.foldl_append

theorem Memory.get_ok (m : Memory) : (get : MemoryM Memory) m = .ok m m := rfl

theorem Memory.enter_eq (name : String) (m : Memory) :
    Memory.enter name m =
      if m.maxFrames ≤ m.stack.depth then .error (.stackOverflow m.maxFrames) m
      else .ok m.stack.nextId { m with stack := m.stack.push name } := by
  simp only [Memory.enter, bind, EStateM.bind, get_ok]
  split <;> rfl

/-! ### Addresses handed out -/

/-- The number of addresses handed out when an operation ends. -/
def usedAfter {α : Type} (op : MemoryM α) (m : Memory) : Nat :=
  match op m with
  | .ok _ m' => m'.addresses.used
  | .error _ m' => m'.addresses.used

/-- An operation takes no address back. -/
def Advances {α : Type} (op : MemoryM α) : Prop := ∀ m, m.addresses.used ≤ usedAfter op m

namespace Advances

variable {α β : Type}

theorem pure (a : α) : Advances (Pure.pure a : MemoryM α) := fun _ => Nat.le_refl _

theorem throw (e : MemoryError) : Advances (MonadExcept.throw e : MemoryM α) :=
  fun _ => Nat.le_refl _

theorem get : Advances (MonadState.get : MemoryM Memory) := fun _ => Nat.le_refl _

theorem modify {f : Memory → Memory} (hf : ∀ m, (f m).addresses = m.addresses) :
    Advances (modifyThe Memory f : MemoryM PUnit) := by
  intro m
  show m.addresses.used ≤ (f m).addresses.used
  exact Nat.le_of_eq (congrArg Address.Supply.used (hf m)).symm

theorem ask (question : Memory → Except MemoryError α) : Advances (Memory.ask question) := by
  intro m
  unfold usedAfter Memory.ask
  cases question m <;> exact Nat.le_refl _

theorem onHeap (op : HeapM α) : Advances (Memory.onHeap op) := by
  intro m
  unfold usedAfter Memory.onHeap
  cases op m.heap <;> exact Nat.le_refl _

theorem freshAddress : Advances Memory.freshAddress := fun _ => Nat.le_succ _

theorem bind {x : MemoryM α} {k : α → MemoryM β} (hx : Advances x) (hk : ∀ a, Advances (k a)) :
    Advances (x >>= k) := by
  intro m
  have hm := hx m
  simp only [usedAfter, Bind.bind, EStateM.bind] at hm ⊢
  cases hxm : x m with
  | ok a m' =>
      rw [hxm] at hm
      exact Nat.le_trans hm (hk a m')
  | error e m' =>
      rw [hxm] at hm
      exact hm

theorem map (f : α → β) {x : MemoryM α} (hx : Advances x) : Advances (f <$> x) :=
  bind hx fun a => pure (f a)

theorem pushSlot (id : Nat) (name : String) (type : DeclaredType) (value : Value) :
    Advances (Memory.pushSlot id name type value) :=
  bind freshAddress fun _ => bind (ask _) fun _ => bind (modify fun _ => rfl) fun _ => pure _

theorem overwrite (id : Nat) (target : String) (value : Value) :
    Advances (Memory.overwrite id target value) := bind (ask _) fun _ => modify fun _ => rfl

theorem rebind (id : Nat) (target : String) (value : Value) (counted : Bool) :
    Advances (Memory.rebind id target value counted) := by
  -- Both branches of each choice end in the same rest.
  have hrest : ∀ es : List Entry,
      Advances (do Memory.overwrite id target value; Pure.pure es) :=
    fun es => bind (overwrite id target value) fun _ => pure es
  have hretain : ∀ es : List Entry,
      Advances (do
        if !counted then Memory.onHeap (Heap.retainAll value.referent?.toList)
        Memory.overwrite id target value
        Pure.pure es) := by
    intro es
    cases counted
    · exact bind (onHeap _) fun _ => hrest es
    · exact hrest es
  refine bind (ask _) fun s => ?_
  dsimp only
  split
  · exact pure _
  · split
    · exact bind (onHeap _) hretain
    · exact bind (pure _) hretain

theorem enter (name : String) : Advances (Memory.enter name) := by
  intro m
  have hsame : usedAfter (Memory.enter name) m = m.addresses.used := by
    unfold usedAfter
    rw [Memory.enter_eq]
    by_cases hd : m.maxFrames ≤ m.stack.depth
    · simp only [if_pos hd]
    · simp only [if_neg hd]
  exact Nat.le_of_eq hsame.symm

end Advances

namespace Operation

theorem advances_run (op : Operation) : Advances op.run := by
  cases op with
  | declareScalar id name type value =>
      refine .map _ (.bind (.ask _) fun _ => ?_)
      dsimp only
      split
      · exact .bind (.throw _) fun _ => .pushSlot _ _ _ _
      · exact .pushSlot _ _ _ _
  | declareNull id name type =>
      refine .map _ (.bind (.ask _) fun _ => ?_)
      dsimp only
      split
      · exact .bind (.throw _) fun _ => .pushSlot _ _ _ _
      · exact .pushSlot _ _ _ _
  | declareObject id name category fields =>
      exact .map _ (.bind (.ask _) fun _ => .bind (.ask _) fun _ => .bind .freshAddress fun _ =>
        .bind (.onHeap _) fun _ => .bind (.pushSlot _ _ _ _) fun _ => .pure _)
  | declareArray id name elementType elements =>
      exact .map _ (.bind (.ask _) fun _ => .bind (.ask _) fun _ => .bind (.ask _) fun _ =>
        .bind (.onHeap _) fun _ => .bind .freshAddress fun _ => .bind (.onHeap _) fun _ =>
        .bind (.pushSlot _ _ _ _) fun _ => .pure _)
  | declareCopy id name type source =>
      exact .map _ (.bind (.ask _) fun _ => .bind (.ask _) fun _ => .bind (.ask _) fun _ =>
        .bind (.onHeap _) fun _ => .pushSlot _ _ _ _)
  | assign id target source =>
      refine .map _ (.bind (.ask _) fun _ => .bind (.ask _) fun _ => .bind (.ask _) fun _ => ?_)
      split
      · exact .rebind _ _ _ _
      · exact .bind (.overwrite _ _ _) fun _ => .pure _
  | assignLiteral id target source value =>
      refine .map _ (.bind (.ask _) fun t => ?_)
      split
      · exact .overwrite _ _ _
      · exact .throw _
  | assignNull id target =>
      refine .map _ (.bind (.ask _) fun _ => ?_)
      dsimp only
      split
      · exact .bind (.throw _) fun _ => .rebind _ _ _ _
      · exact .rebind _ _ _ _
  | assignNew id target category fields =>
      have hrest : Advances (do
          Memory.ask (·.requireRoom)
          let a ← Memory.freshAddress
          Memory.onHeap (Heap.allocate a (.object category) (.object fields))
          let _ ← Memory.rebind id target (.objectRef a) true
          Pure.pure a) :=
        .bind (.ask _) fun _ => .bind .freshAddress fun _ => .bind (.onHeap _) fun _ =>
          .bind (.rebind _ _ _ _) fun _ => .pure _
      refine .map _ (.bind (.ask _) fun _ => ?_)
      dsimp only
      split
      · exact .bind (.throw _) fun _ => hrest
      · exact hrest
  | enter name => exact .map _ (.enter name)
  | leave =>
      refine .map _ (.bind .get fun m => ?_)
      split
      · exact .throw _
      · exact .bind (.onHeap _) fun _ => .bind (.modify fun _ => rfl) fun _ => .pure _

/-- An operation takes no address back. -/
theorem used_le_after (op : Operation) (m : Memory) :
    m.addresses.used ≤ (op.after m).addresses.used := by
  have h := advances_run op m
  unfold usedAfter at h
  unfold after
  cases hr : op.run m <;> rw [hr] at h <;> exact h

end Operation

theorem Memory.used_le_runAll (m : Memory) (ops : List Operation) :
    m.addresses.used ≤ (m.runAll ops).addresses.used := by
  induction ops generalizing m with
  | nil => exact Nat.le_refl _
  | cons op ops ih => exact Nat.le_trans (op.used_le_after m) (ih _)

end StackHeap.Store
