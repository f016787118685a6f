import StackHeap.Proofs.Store.Outcome

/-! # Operations as elementary moves

An operation called with any arguments, in any memory, may be carried out, may be refused, or may
stop half way.  Whatever happens, the memory changes by elementary moves only (`Memory.Move`), each
of which says under which condition it is made.

* **Counts.**  An entry gains a holder, loses one of several, or is collected with its last one
  (`Heap.Move`).
* **Addresses.**  A new entry and a new slot take the next address, and no other move hands one out.
  The list in `Memory.Moves given` has the addresses given in this way, in order.
* **Collisions.**  The one thing that is not a move is an address that is handed out and lost: an
  allocation fails because the next address is that of a live entry (`Memory.Makes`).

What every move keeps is kept by every operation (`Operation.after_induction`) and by every run
(`Memory.runAll_moves`), carried out or not, and with no bound on the addresses handed out. -/

namespace StackHeap.Store

/-- The error tells of an address that is a live entry's already. -/
def MemoryError.IsCollision (e : MemoryError) : Prop := ∃ a, e = .broken (.allocatedTwice a)

theorem MemoryError.IsRefusal.not_isCollision {e : MemoryError} (he : e.IsRefusal) :
    ¬ e.IsCollision := by
  rintro ⟨a, ha⟩
  exact he _ ha

/-! ### The heap -/

namespace Heap

variable {α β : Type} {h h₁ h' : Heap}

/-- An elementary change of the counts. -/
inductive Move (h : Heap) : Heap → Prop where
  | raise {a : Address} {e : Entry} (hg : h.get? a = some e) : Move h (h.updateRefs a (· + 1))
  | lower {a : Address} {e : Entry} (hg : h.get? a = some e) (h1 : 1 < e.refs) :
      Move h (h.updateRefs a (· - 1))
  | collect {a : Address} {e : Entry} (hg : h.get? a = some e) (h1 : e.refs = 1) :
      Move h (h.remove a)

/-- A move of the counts keeps entries as they are. -/
theorem Move.kept (hm : h.Move h') : h.Kept h' := by
  cases hm with
  | raise hg => exact .updateRefs h _ _
  | lower hg h1 => exact .updateRefs h _ _
  | collect hg h1 => exact .remove h _

/-- Elementary changes of the counts, one after the other. -/
inductive Moves : Heap → Heap → Prop
  | refl (h : Heap) : Moves h h
  | step {h h₁ h' : Heap} : Move h h₁ → Moves h₁ h' → Moves h h'

theorem Moves.trans (hm : h.Moves h₁) (hm' : h₁.Moves h') : h.Moves h' := by
  induction hm with
  | refl h => exact hm'
  | step hstep _ ih => exact .step hstep (ih hm')

theorem Moves.kept (hm : h.Moves h') : h.Kept h' := by
  induction hm with
  | refl h => exact .refl h
  | step hstep _ ih => exact hstep.kept.trans ih

/-- A heap of kept entries has as much room. -/
theorem Kept.hasRoom (hk : h.Kept h') {n : Nat} (hr : h.hasRoom n = true) :
    h'.hasRoom n = true := by
  have hl := hk.entries.length_le
  simp only [List.length_map] at hl
  simp only [Heap.hasRoom, decide_eq_true_eq, hk.limit] at hr ⊢
  omega

/-- An operation on the heap changes counts only, whether it is carried out or not. -/
def Makes (op : HeapM α) (h : Heap) : Prop :=
  match op h with
  | .ok _ h' => h.Moves h'
  | .error e h' => h.Moves h' ∧ ¬ e.IsCollision

theorem Makes.bind {op : HeapM α} {k : α → HeapM β} (ho : Makes op h)
    (hk : ∀ a h₁, op h = .ok a h₁ → Makes (k a) h₁) : Makes (op >>= k) h := by
  unfold Makes at ho ⊢
  cases hop : op h with
  | error e h₁ =>
      rw [hop] at ho
      simp only [Bind.bind, EStateM.bind, hop]
      exact ho
  | ok a h₁ =>
      have hrest := hk a h₁ hop
      unfold Makes at hrest
      rw [hop] at ho
      simp only [Bind.bind, EStateM.bind, hop]
      cases hka : k a h₁ with
      | ok b h₂ =>
          rw [hka] at hrest
          exact ho.trans hrest
      | error e h₂ =>
          rw [hka] at hrest
          exact ⟨ho.trans hrest.1, hrest.2⟩

theorem makes_retain (a : Address) (h : Heap) : Makes (retain a) h := by
  unfold Makes
  simp only [retain, Bind.bind, EStateM.bind, get_ok]
  cases hg : h.get? a with
  | none =>
      refine ⟨.refl h, ?_⟩
      rintro ⟨b, hb⟩
      cases hb
  | some e => exact .step (.raise hg) (.refl _)

theorem makes_retainAll (as : List Address) (h : Heap) : Makes (retainAll as) h := by
  induction as generalizing h with
  | nil => exact .refl h
  | cons a as ih => exact (makes_retain a h).bind fun n h₁ _ => ih h₁

/-- A release changes counts only, wherever it stops. -/
theorem makes_releaseAll (h : Heap) (as : List Address) : Makes (fun h => h.releaseAll as) h := by
  simp only [Makes]
  induction h, as using releaseAll.induct with
  | case1 h =>
      rw [releaseAll_nil]
      exact .refl h
  | case2 h a pending hg =>
      rw [releaseAll_dangling hg]
      refine ⟨.refl h, ?_⟩
      rintro ⟨b, hb⟩
      cases hb
  | case3 h a pending e hg hz =>
      rw [releaseAll_negative hg hz]
      refine ⟨.refl h, ?_⟩
      rintro ⟨b, hb⟩
      cases hb
  | case4 h a pending e hg hz h1 collected h₁ heq ih =>
      rw [heq] at ih
      rw [releaseAll_collect hg h1, heq]
      exact .step (.collect hg h1) ih
  | case5 h a pending e hg hz h1 fault h₁ heq ih =>
      rw [heq] at ih
      rw [releaseAll_collect hg h1, heq]
      exact ⟨.step (.collect hg h1) ih.1, ih.2⟩
  | case6 h a pending e hg hz h1 ih =>
      have h2 : 1 < e.refs := by omega
      rw [releaseAll_lower hg h2]
      cases hr : (h.updateRefs a (· - 1)).releaseAll pending with
      | ok collected h₁ =>
          rw [hr] at ih
          exact .step (.lower hg h2) ih
      | error fault h₁ =>
          rw [hr] at ih
          exact ⟨.step (.lower hg h2) ih.1, ih.2⟩

end Heap

/-! ### The memory -/

namespace Memory

variable {α β : Type} {m m₁ m' : Memory} {as bs : List Address} {id : Nat} {name : String}
  {f : Frame} {x : Slot}

/-- The memory with the next address handed out to nothing. -/
def skipped (m : Memory) : Memory := { m with addresses := m.addresses.advance }

/-- An elementary change of the memory, with the address that it gives to a new slot or entry. -/
inductive Move (m : Memory) : List Address → Memory → Prop where
  | count {h : Heap} (hm : m.heap.Move h) : Move m [] { m with heap := h }
  | allocate {type : DeclaredType} {contents : Contents} (hr : m.heap.hasRoom 1 = true)
      (hg : m.heap.get? m.addresses.next = none) :
      Move m [m.addresses.next] (m.allocated type contents)
  | declare {id : Nat} {name : String} {f : Frame} {type : DeclaredType} {value : Value}
      (hf : m.stack.frame? id = some f) (hn : f.slot? name = none) :
      Move m [m.addresses.next] (m.declared id name type value)
  | write {id : Nat} {name : String} {f : Frame} {x : Slot} {value : Value}
      (hf : m.stack.frame? id = some f) (hx : f.slot? name = some x) :
      Move m [] (m.written id name value)
  | enter {name : String} (hd : m.stack.depth < m.maxFrames) :
      Move m [] { m with stack := m.stack.push name }
  | leave {f : Frame} {t : Stack} (hp : m.stack.pop? = some (f, t)) :
      Move m [] { m with stack := t }

/-- Elementary changes one after the other, with all the addresses that they give. -/
inductive Moves : Memory → List Address → Memory → Prop
  | refl (m : Memory) : Moves m [] m
  | step {m m₁ m' : Memory} {as bs : List Address} :
      Move m as m₁ → Moves m₁ bs m' → Moves m (as ++ bs) m'

theorem Moves.trans (hm : m.Moves as m₁) (hm' : m₁.Moves bs m') : m.Moves (as ++ bs) m' := by
  induction hm with
  | refl m => exact hm'
  | step hstep _ ih =>
      rw [List.append_assoc]
      exact .step hstep (ih hm')

theorem Moves.single (hm : m.Move as m') : m.Moves as m' := by
  have h := Moves.step hm (.refl m')
  rwa [List.append_nil] at h

theorem Moves.heap {h : Heap} (hm : m.heap.Moves h) : m.Moves [] { m with heap := h } := by
  have hlift : ∀ {h₀ h' : Heap}, h₀.Moves h' →
      ({ m with heap := h₀ } : Memory).Moves [] { m with heap := h' } := by
    intro h₀ h' hm
    induction hm with
    | refl h => exact .refl _
    | step hstep _ ih => exact Moves.step (.count hstep) ih
  exact hlift hm

/-! ### What operations make -/

/-- An operation makes moves and ends.  It may end with a failed allocation, which hands out an
address and loses it because it is a live entry's. -/
def Makes (op : MemoryM α) (m : Memory) : Prop :=
  match op m with
  | .ok _ m' => ∃ as, m.Moves as m'
  | .error e m' => ∃ as m₁, m.Moves as m₁ ∧
      ((m' = m₁ ∧ ¬ e.IsCollision) ∨
        (m₁.heap.contains m₁.addresses.next = true ∧ m' = m₁.skipped))

namespace Makes

theorem of_ok {op : MemoryM α} {a : α} (ho : op m = .ok a m') (hm : m.Moves as m') :
    Makes op m := by
  unfold Makes
  rw [ho]
  exact ⟨as, hm⟩

theorem of_refuses {op : MemoryM α} (ho : Refuses op m) : Makes op m := by
  obtain ⟨e, he, hr⟩ := ho
  unfold Makes
  rw [he]
  exact ⟨[], m, .refl m, .inl ⟨rfl, hr.not_isCollision⟩⟩

/-- After some moves the operation goes on as another one. -/
theorem after {op : MemoryM α} {rest : MemoryM α} (hm : m.Moves as m₁) (hr : Makes rest m₁)
    (ho : op m = rest m₁) : Makes op m := by
  unfold Makes at hr ⊢
  rw [ho]
  cases hrest : rest m₁ with
  | ok a m' =>
      rw [hrest] at hr
      obtain ⟨bs, hb⟩ := hr
      exact ⟨as ++ bs, hm.trans hb⟩
  | error e m' =>
      rw [hrest] at hr
      obtain ⟨bs, m₂, hb, hend⟩ := hr
      exact ⟨as ++ bs, m₂, hm.trans hb, hend⟩

theorem bind_ok {op : MemoryM α} {k : α → MemoryM β} {a : α} (ho : op m = .ok a m')
    (hm : m.Moves as m') (hk : Makes (k a) m') : Makes (op >>= k) m :=
  after hm hk (Memory.bind_ok ho)

theorem bind {op : MemoryM α} {k : α → MemoryM β} (ho : Makes op m)
    (hk : ∀ a m₁, op m = .ok a m₁ → Makes (k a) m₁) : Makes (op >>= k) m := by
  unfold Makes at ho
  cases hop : op m with
  | ok a m₁ =>
      rw [hop] at ho
      obtain ⟨as, hm⟩ := ho
      exact bind_ok hop hm (hk a m₁ hop)
  | error e m₁ =>
      rw [hop] at ho
      unfold Makes
      rw [Memory.bind_error hop]
      exact ho

theorem map {op : MemoryM α} (g : α → β) (ho : Makes op m) : Makes (g <$> op) m :=
  bind ho fun _ m₁ _ => of_ok rfl (.refl m₁)

/-- An operation on the heap makes moves of the counts, and leaves the rest alone. -/
theorem onHeap_bind {op : HeapM α} {k : α → MemoryM β} (ho : Heap.Makes op m.heap)
    (hk : ∀ a h, m.heap.Moves h → Makes (k a) { m with heap := h }) :
    Makes (onHeap op >>= k) m := by
  unfold Heap.Makes at ho
  cases hop : op m.heap with
  | ok a h =>
      rw [hop] at ho
      exact bind_ok (onHeap_ok hop) (.heap ho) (hk a h ho)
  | error e h =>
      rw [hop] at ho
      unfold Makes
      rw [Memory.bind_error (onHeap_error hop)]
      exact ⟨[], { m with heap := h }, .heap ho.1, .inl ⟨rfl, ho.2⟩⟩

/-- An allocation takes the next address, or fails because that is a live entry's. -/
theorem allocation {type : DeclaredType} {contents : Contents} {k : Address → MemoryM α}
    (hr : m.heap.hasRoom 1 = true)
    (hk : Makes (k m.addresses.next) (m.allocated type contents)) :
    Makes (do
      let a ← freshAddress
      onHeap (Heap.allocate a type contents)
      k a) m := by
  cases hg : m.heap.get? m.addresses.next with
  | none => exact after (.single (.allocate hr hg)) hk (allocation_ok hr hg k)
  | some e =>
      have hc : m.heap.contains m.addresses.next = true := by
        rw [Heap.contains, hg]
        rfl
      have herr : (do
          let a ← freshAddress
          onHeap (Heap.allocate a type contents)
          k a : MemoryM α) m =
            .error (.broken (.allocatedTwice m.addresses.next)) m.skipped := by
        simp only [Bind.bind, EStateM.bind, freshAddress, onHeap, Heap.allocate, Heap.get_ok, hr,
          hc, Bool.not_true, Bool.false_eq_true, if_false, if_true]
        rfl
      unfold Makes
      rw [herr]
      exact ⟨[], m, .refl m, .inr ⟨hc, rfl⟩⟩

theorem pushSlot (hf : m.stack.frame? id = some f) (hn : f.slot? name = none)
    (type : DeclaredType) (value : Value) : Makes (Memory.pushSlot id name type value) m :=
  of_ok (pushSlot_ok hf name type value) (.single (.declare hf hn))

/-- A new entry and a new slot take an address each. -/
theorem construction (hr : m.heap.hasRoom 1 = true) (hf : m.stack.frame? id = some f)
    (hn : f.slot? name = none) (type : DeclaredType) (contents : Contents)
    (value : Address → Value) :
    Makes (do
      let a ← freshAddress
      onHeap (Heap.allocate a type contents)
      let _ ← Memory.pushSlot id name type (value a)
      return a) m := by
  refine allocation hr (bind ?_ fun _ m₁ _ => of_ok rfl (.refl m₁))
  exact pushSlot (m := m.allocated type contents) hf hn _ _

theorem overwrite (hf : m.stack.frame? id = some f) (hx : f.slot? name = some x) (value : Value) :
    Makes (Memory.overwrite id name value) m :=
  of_ok (overwrite_ok hf hx value) (.single (.write hf hx))

/-- A variable that shows something else lets its entry go, takes the next one, and is written. -/
theorem rebind (hf : m.stack.frame? id = some f) (hx : f.slot? name = some x) (value : Value)
    (counted : Bool) : Makes (Memory.rebind id name value counted) m := by
  have hwrite : ∀ (h : Heap) (es : List Entry), Makes (do
      Memory.overwrite id name value
      pure es : MemoryM (List Entry)) { m with heap := h } := by
    intro h es
    have hm : ({ m with heap := h } : Memory).Move []
        ({ m with heap := h }.written id name value) := .write hf hx
    refine bind_ok (overwrite_ok (m := { m with heap := h }) hf hx value) (.single hm) ?_
    exact of_ok rfl (.refl _)
  have hrest : ∀ (h : Heap) (es : List Entry), Makes (do
      if !counted then onHeap (Heap.retainAll value.referent?.toList)
      Memory.overwrite id name value
      pure es : MemoryM (List Entry)) { m with heap := h } := by
    intro h es
    cases counted with
    | true => exact hwrite h es
    | false => exact onHeap_bind (Heap.makes_retainAll _ h) fun _ h' _ => hwrite h' es
  by_cases he : x.value = value
  · exact of_ok (rebind_same hf hx he counted) (.refl m)
  · unfold Memory.rebind
    refine bind_ok (ask_ok (lookup_ok hf hx)) (.refl m) ?_
    dsimp only
    rw [if_neg he]
    cases x.value.referent? with
    | none => exact hrest m.heap []
    | some a =>
        refine onHeap_bind (Heap.makes_releaseAll m.heap [a]) fun es h _ => ?_
        exact hrest h es

/-! Checks come first: each of them refuses, or the operation goes on with what it found. -/

theorem requireFree {k : Unit → MemoryM α}
    (hk : ∀ f, m.stack.frame? id = some f → f.slot? name = none → Makes (k ()) m) :
    Makes (ask (·.requireFree id name) >>= k) m := by
  rcases requireFree_cases m id name with ⟨e, he, hr⟩ | ⟨f, hf, hn, hok⟩
  · exact of_refuses (refuses_ask he hr)
  · exact bind_ok (ask_ok hok) (.refl m) (hk f hf hn)

theorem requireRoom {k : Unit → MemoryM α} (hk : m.heap.hasRoom 1 = true → Makes (k ()) m) :
    Makes (ask (·.requireRoom) >>= k) m := by
  rcases requireRoom_cases m with ⟨e, he, hr⟩ | ⟨hroom, hok⟩
  · exact of_refuses (refuses_ask he hr)
  · exact bind_ok (ask_ok hok) (.refl m) (hk hroom)

theorem lookup {k : Slot → MemoryM α}
    (hk : ∀ f x, m.stack.frame? id = some f → f.slot? name = some x → Makes (k x) m) :
    Makes (ask (·.lookup id name) >>= k) m := by
  rcases lookup_cases m id name with ⟨e, he, hr⟩ | ⟨f, x, hf, hx, hok⟩
  · exact of_refuses (refuses_ask he hr)
  · exact bind_ok (ask_ok hok) (.refl m) (hk f x hf hx)

theorem requireAccepts {target : String} {type source : DeclaredType} {k : Unit → MemoryM α}
    (hk : Makes (k ()) m) : Makes (ask (fun _ => requireAccepts target type source) >>= k) m := by
  rcases requireAccepts_cases target type source with ⟨e, he, hr⟩ | ⟨-, hok⟩
  · exact of_refuses (refuses_ask he hr)
  · exact bind_ok (ask_ok hok) (.refl m) hk

theorem elementValues {array : String} {type : DeclaredType} {elements : List Element}
    {k : List Value → MemoryM α} (hf : m.stack.frame? id = some f)
    (hk : ∀ values, Makes (k values) m) :
    Makes (ask (·.elementValues id array type 0 elements) >>= k) m := by
  rcases elementValues_cases hf array type 0 elements with ⟨e, he, hr⟩ | ⟨values, hok, -⟩
  · exact of_refuses (refuses_ask he hr)
  · exact bind_ok (ask_ok hok) (.refl m) (hk values)

end Makes

end Memory

namespace Operation

open Memory

variable {m : Memory}

theorem makes_declareScalar (m : Memory) (id : Nat) (name : String) (type : Primitive)
    (value : Value) : Makes (declareScalar id name type value).run m := by
  refine .map _ (.requireFree fun f hf hn => ?_)
  cases value.isReference with
  | true =>
      refine .of_refuses ⟨.incompatible name (.primitive type) .reference, rfl, ?_⟩
      intro fault
      simp
  | false => exact .pushSlot hf hn _ _

theorem makes_declareNull (m : Memory) (id : Nat) (name : String) (type : DeclaredType) :
    Makes (declareNull id name type).run m := by
  refine .map _ (.requireFree fun f hf hn => ?_)
  cases type.isReference with
  | false => exact .of_refuses ⟨.incompatible name type .null, rfl, fun _ => by simp⟩
  | true => exact .pushSlot hf hn _ _

theorem makes_declareObject (m : Memory) (id : Nat) (name category : String)
    (fields : List Field) : Makes (declareObject id name category fields).run m := by
  refine .map _ (.requireFree fun f hf hn => .requireRoom fun hroom => ?_)
  exact .construction hroom hf hn _ _ .objectRef

theorem makes_declareArray (m : Memory) (id : Nat) (name : String) (type : DeclaredType)
    (elements : List Element) : Makes (declareArray id name type elements).run m := by
  refine .map _ (.requireFree fun f hf hn => .requireRoom fun hroom => ?_)
  refine .elementValues hf fun values => .onHeap_bind (Heap.makes_retainAll _ m.heap) ?_
  intro _ h hm
  exact .construction (m := { m with heap := h }) (hm.kept.hasRoom hroom) hf hn _ _ .arrayRef

theorem makes_declareCopy (m : Memory) (id : Nat) (name : String) (type : DeclaredType)
    (source : String) : Makes (declareCopy id name type source).run m := by
  refine .map _ (.requireFree fun f hf hn => .lookup fun f' x hf' hx => .requireAccepts ?_)
  refine .onHeap_bind (Heap.makes_retainAll _ m.heap) ?_
  intro _ h _
  exact .pushSlot (m := { m with heap := h }) hf hn _ _

theorem makes_assign (m : Memory) (id : Nat) (target source : String) :
    Makes (assign id target source).run m := by
  refine .map _ (.lookup fun f t hf ht => .lookup fun f' x hf' hx => .requireAccepts ?_)
  cases t.type.isReference with
  | true => exact .rebind hf ht _ _
  | false =>
      exact .bind_ok (overwrite_ok hf ht _) (.single (.write hf ht)) (.of_ok rfl (.refl _))

theorem makes_assignLiteral (m : Memory) (id : Nat) (target : String) (source : Primitive)
    (value : Value) : Makes (assignLiteral id target source value).run m := by
  refine .map _ (.lookup fun f t hf ht => ?_)
  cases t.type.primitive?.filter fun p => p.accepts source && !value.isReference with
  | none => exact .of_refuses ⟨_, rfl, fun _ => by simp⟩
  | some p => exact .overwrite hf ht _

theorem makes_assignNull (m : Memory) (id : Nat) (target : String) :
    Makes (assignNull id target).run m := by
  refine .map _ (.lookup fun f t hf ht => ?_)
  cases t.type.isReference with
  | false => exact .of_refuses ⟨.incompatible target t.type .null, rfl, fun _ => by simp⟩
  | true => exact .rebind hf ht _ _

theorem makes_assignNew (m : Memory) (id : Nat) (target category : String) (fields : List Field) :
    Makes (assignNew id target category fields).run m := by
  refine .map _ (.lookup fun f t hf ht => ?_)
  dsimp only
  by_cases hp : t.type = .object category
  · rw [if_neg (not_not_intro hp)]
    refine .requireRoom fun hroom => .allocation hroom (.bind ?_ fun _ m₁ _ => ?_)
    · exact .rebind (m := m.allocated (.object category) (.object fields)) hf ht _ _
    · exact .of_ok rfl (.refl m₁)
  · rw [if_pos hp]
    exact .of_refuses ⟨_, rfl, fun _ => by simp⟩

theorem makes_enter (m : Memory) (name : String) : Makes (enter name).run m := by
  by_cases hd : m.maxFrames ≤ m.stack.depth
  · refine .of_refuses (refuses_map _ ⟨.stackOverflow m.maxFrames, ?_, fun _ => by simp⟩)
    rw [Memory.enter_eq, if_pos hd]
  · have hok : Memory.enter name m = .ok m.stack.nextId { m with stack := m.stack.push name } := by
      rw [Memory.enter_eq, if_neg hd]
    exact .map _ (.of_ok hok (.single (.enter (Nat.lt_of_not_le hd))))

theorem makes_leave (m : Memory) : Makes leave.run m := by
  refine .map _ (.bind_ok (get_ok m) (.refl m) ?_)
  cases hp : m.stack.pop? with
  | none => exact .of_refuses ⟨.rootFrameExit m.stack.root.name, rfl, fun _ => by simp⟩
  | some r =>
      obtain ⟨f, t⟩ := r
      have hmakes : Heap.Makes (releaseEach f.references) m.heap := by
        have h := Heap.makes_releaseAll m.heap f.references
        unfold Heap.Makes at h ⊢
        rwa [releaseEach_eq]
      refine .onHeap_bind hmakes fun es h _ => ?_
      have hpop : ({ m with heap := h } : Memory).Move [] { m with heap := h, stack := t } :=
        .leave hp
      exact .of_ok rfl (.single hpop)

/-- **Every operation makes moves**, whatever it is called with and however it ends. -/
theorem makes (op : Operation) (m : Memory) : Makes op.run m := by
  cases op with
  | declareScalar id name type value => exact makes_declareScalar m id name type value
  | declareNull id name type => exact makes_declareNull m id name type
  | declareObject id name category fields => exact makes_declareObject m id name category fields
  | declareArray id name type elements => exact makes_declareArray m id name type elements
  | declareCopy id name type source => exact makes_declareCopy m id name type source
  | assign id target source => exact makes_assign m id target source
  | assignLiteral id target source value => exact makes_assignLiteral m id target source value
  | assignNull id target => exact makes_assignNull m id target
  | assignNew id target category fields => exact makes_assignNew m id target category fields
  | enter name => exact makes_enter m name
  | leave => exact makes_leave m

/-- The memory after an operation is reached by moves, and the operation tells of no collision; or
it is reached by moves and by handing out the address of a live entry. -/
theorem exists_moves (op : Operation) (m : Memory) :
    (∃ as, m.Moves as (op.after m) ∧ ∀ a, op.error? m ≠ some (.broken (.allocatedTwice a))) ∨
      ∃ as m₁, m.Moves as m₁ ∧ m₁.heap.contains m₁.addresses.next = true ∧
        op.after m = m₁.skipped := by
  have hmakes := op.makes m
  unfold Makes at hmakes
  unfold after error?
  cases hrun : op.run m with
  | ok answer m' =>
      rw [hrun] at hmakes
      obtain ⟨as, hm⟩ := hmakes
      exact .inl ⟨as, hm, fun a he => by cases he⟩
  | error e m' =>
      rw [hrun] at hmakes
      obtain ⟨as, m₁, hm, ⟨rfl, he⟩ | ⟨hc, rfl⟩⟩ := hmakes
      · exact .inl ⟨as, hm, fun a ha => he ⟨a, Option.some.inj ha⟩⟩
      · exact .inr ⟨as, m₁, hm, hc, rfl⟩

end Operation

/-! ### What moves keep -/

section Induction

variable {P : Memory → Prop} {m : Memory}

theorem Memory.Moves.induct {m' : Memory} {as : List Address}
    (hmove : ∀ {m m' : Memory} {as : List Address}, P m → m.Move as m' → P m') (hp : P m)
    (hm : m.Moves as m') : P m' := by
  induction hm with
  | refl m => exact hp
  | step hstep _ ih => exact ih (hmove hp hstep)

/-- What moves and lost addresses keep is kept by every operation. -/
theorem Operation.after_induction
    (hmove : ∀ {m m' : Memory} {as : List Address}, P m → m.Move as m' → P m')
    (hskip : ∀ {m : Memory}, P m → P m.skipped) (op : Operation) (hp : P m) : P (op.after m) := by
  rcases op.exists_moves m with ⟨as, hm, -⟩ | ⟨as, m₁, hm, -, he⟩
  · exact hm.induct hmove hp
  · rw [he]
    exact hskip (hm.induct hmove hp)

/-- What moves and lost addresses keep is kept by every run. -/
theorem Memory.runAll_moves
    (hmove : ∀ {m m' : Memory} {as : List Address}, P m → m.Move as m' → P m')
    (hskip : ∀ {m : Memory}, P m → P m.skipped) (hp : P m) (ops : List Operation) :
    P (m.runAll ops) := by
  induction ops generalizing m with
  | nil => exact hp
  | cons op ops ih => exact ih (op.after_induction hmove hskip hp)

end Induction

end StackHeap.Store
