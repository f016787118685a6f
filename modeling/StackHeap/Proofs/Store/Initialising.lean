import StackHeap.Proofs.Store.Settled

/-! # Declaring with a value, or declaring and then assigning

A variable can be declared with the value that it is to have, or be declared with another value that
holds no address and then be written.  The operations of both ways refuse together or are carried
out together, and the memories that they leave agree (`Operation.Agree`).

* A write behind a declaration is a declaration with the value written (`written_declared`), so for
  values in place, null and copies the memory is the same.
* A new object takes an address, and so does the variable.  Which of the two comes first is all that
  differs: `Memory.constructed` is the memory with both, for either order. -/

namespace StackHeap.Store

open Number

namespace Frame

variable {f : Frame} {x y : Slot} {name : String}

theorem slot?_push_of_some (hx : f.slot? name = some x) (y : Slot) :
    (f.push y).slot? name = some x := by
  unfold slot? at hx ⊢
  rw [push, List.find?_append, hx, Option.some_or]

theorem slot?_of_push (hx : (f.push y).slot? name = some x) (hne : y.name ≠ name) :
    f.slot? name = some x := by
  unfold slot? at hx ⊢
  rwa [push, List.find?_append, List.find?_cons_of_neg (by simpa using hne), List.find?_nil,
    Option.or_none] at hx

/-- A slot that is pushed and written is pushed with the value written. -/
theorem write_push (hx : f.slot? y.name = none) (v : Value) :
    (f.push y).write y.name v = f.push { y with value := v } := by
  have hold : (f.slots.map fun z => if z.name = y.name then { z with value := v } else z) =
      f.slots := map_ite_eq_self fun z hz hzy => not_mem_names_of_slot? hx
        (hzy ▸ List.mem_map_of_mem hz)
  unfold write push
  simp only [List.map_append, hold, List.map_singleton, if_pos]

end Frame

theorem Stack.update_update {g h : Frame → Frame} (hg : ∀ f, (g f).id = f.id) (s : Stack)
    (id : Nat) : (s.update id g).update id h = s.update id fun f => h (g f) := by
  have hboth : ∀ y : Frame, (if (if y.id = id then g y else y).id = id then
      h (if y.id = id then g y else y) else if y.id = id then g y else y) =
      if y.id = id then h (g y) else y := by
    intro y
    by_cases hid : y.id = id
    · rw [if_pos hid, if_pos hid, if_pos ((hg y).trans hid)]
    · rw [if_neg hid, if_neg hid, if_neg hid]
  have habove : (s.above.map fun y => if y.id = id then g y else y).map
      (fun y => if y.id = id then h y else y) =
        s.above.map fun y => if y.id = id then h (g y) else y := by
    rw [List.map_map]
    exact List.map_congr_left fun y _ => hboth y
  unfold Stack.update
  dsimp only
  rw [hboth s.root, habove]

/-- Nor is the address after the next one a live entry's: past the bound it is the next one. -/
theorem Heap.Intact.fresh_advance {h : Heap} {used : Nat} (hi : h.Intact used)
    (hu : used < pow2 53) : h.get? (Address.nth (used + 2)) = none := by
  rcases Nat.lt_or_eq_of_le hu with hlt | heq
  · exact hi.advance.fresh hlt
  · have hnext := hi.fresh hu
    have hcount : used + 1 = pow2 53 := heq
    rw [show used + 2 = used + 1 + 1 from rfl, hcount, Address.nth_succ_pow2, ← hcount]
    exact hnext

/-- Either both operations are refused, or both are carried out and what they leave is related. -/
structure Operation.Agree (R : Memory → Memory → Prop) (op : Operation) (m : Memory)
    (op' : Operation) (m' : Memory) : Prop where
  error? : op.error? m = none ↔ op'.error? m' = none
  after : op.error? m = none → R (op.after m) (op'.after m')

namespace Operation

variable {R : Memory → Memory → Prop} {op op' : Operation} {m m' n n' : Memory}

theorem error?_of_refuses (h : Refuses op.run m) : op.error? m ≠ none := by
  obtain ⟨e, he, -⟩ := h
  rw [error?, he]
  exact Option.some_ne_none e

/-- An operation that is carried out does not refuse. -/
theorem Resolves.step (h : op.Resolves m) (he : op.error? m = none) :
    ∃ answer m', Step m op answer m' := by
  rcases h with hr | ⟨answer, m', -, hs⟩
  · exact absurd he (error?_of_refuses hr)
  · exact ⟨answer, m', hs⟩

theorem Agree.of_ok {a a' : Answer} (h : op.run m = .ok a n) (h' : op'.run m' = .ok a' n')
    (hr : R n n') : Agree R op m op' m' where
  error? := by simp only [Operation.error?, h, h']
  after _ := by
    simp only [Operation.after, h, h']
    exact hr

theorem Agree.of_refuses (h : Refuses op.run m) (h' : Refuses op'.run m') :
    Agree R op m op' m' where
  error? := ⟨fun he => absurd he (error?_of_refuses h), fun he => absurd he (error?_of_refuses h')⟩
  after he := absurd he (error?_of_refuses h)

/-- Operations agree if each asks for the same and they agree once it holds. -/
theorem Agree.of_needs {C : Prop} (hc : op.error? m = none → C) (hc' : op'.error? m' = none → C)
    (h : C → Agree R op m op' m') : Agree R op m op' m' where
  error? := ⟨fun he => (h (hc he)).error?.1 he, fun he => (h (hc' he)).error?.2 he⟩
  after he := (h (hc he)).after he

end Operation

namespace Memory

variable {m : Memory} {id : Nat} {name source category : String} {f : Frame} {x : Slot}
  {type : DeclaredType} {v w : Value} {fields : List Field} {p : Primitive}

/-! ### Writing what was declared -/

/-- **A write behind a declaration is a declaration with the value written.** -/
theorem written_declared (hs : m.stack.WellFormed) (hf : m.stack.frame? id = some f)
    (hn : f.slot? name = none) (type : DeclaredType) (w v : Value) :
    (m.declared id name type w).written id name v = m.declared id name type v := by
  have hframe : (f.push ⟨m.addresses.next, name, type, w⟩).write name v =
      f.push ⟨m.addresses.next, name, type, v⟩ := Frame.write_push (y := ⟨_, name, type, w⟩) hn v
  unfold written declared
  dsimp only
  rw [Stack.update_update (g := (·.push _)) fun _ => rfl,
    hs.update_congr (h := fun f => f.push ⟨m.addresses.next, name, type, v⟩) hf hframe]

/-- A variable that holds no address is bound to what is live. -/
theorem rebind_of_referent?_eq_none (hs : m.stack.WellFormed) (hf : m.stack.frame? id = some f)
    (hx : f.slot? name = some x) (hnone : x.value.referent? = none) (v : Value) (counted : Bool)
    (hl : ∀ a ∈ takenBy v counted, (m.heap.get? a).isSome) :
    rebind id name v counted m = .ok [] ((m.retained (takenBy v counted)).written id name v) := by
  by_cases he : x.value = v
  · have htaken : takenBy v counted = [] := by
      unfold takenBy
      rw [← he, hnone]
      split <;> rfl
    rw [rebind_same hf hx he, htaken]
    have hself := written_self (m := m) hs hf hx
    rw [he] at hself
    exact congrArg _ hself.symm
  · refine rebind_changed hf hx he ?_ hl
    rw [hnone]
    exact Heap.releaseAll_nil _

/-! ### The two ways -/

/-- A variable is free in a frame of a sound memory, and `w` is a value for it that holds no
address. -/
structure Awaits (m : Memory) (id : Nat) (name : String) (type : DeclaredType) (w : Value) :
    Prop where
  sound : m.Sound []
  free : ∃ f, m.stack.frame? id = some f ∧ f.slot? name = none
  fits : type.isReference = w.isReference
  holds_none : w.referent? = none

namespace Awaits

theorem sound_declared (h : m.Awaits id name type w) : (m.declared id name type w).Sound [] := by
  obtain ⟨f, hf, hn⟩ := h.free
  refine Sound.declared ?_ hf hn h.fits
  rw [h.holds_none]
  exact h.sound

/-- The frame and the variable once it is declared. -/
theorem found (h : m.Awaits id name type w) : ∃ f, m.stack.frame? id = some f ∧
    f.slot? name = none ∧ (m.declared id name type w).stack.frame? id =
      some (f.push ⟨m.addresses.next, name, type, w⟩) ∧
    (f.push ⟨m.addresses.next, name, type, w⟩).slot? name =
      some ⟨m.addresses.next, name, type, w⟩ := by
  obtain ⟨f, hf, hn⟩ := h.free
  exact ⟨f, hf, hn, Stack.frame?_update (g := (·.push _)) (fun _ => rfl) hf,
    Frame.slot?_push (x := ⟨_, name, type, w⟩) hn⟩

end Awaits

/-- The memory with a new variable that refers to a new object, each at the address given. -/
def constructed (m : Memory) (id : Nat) (name category : String) (fields : List Field)
    (object slot : Address) : Memory where
  stack := m.stack.update id (·.push ⟨slot, name, .object category, .objectRef object⟩)
  heap := m.heap.appended ⟨object, .object category, .object fields, 1, m.heap.nextSequence⟩
  addresses := m.addresses.advance.advance
  maxFrames := m.maxFrames

/-! ### Assigning to what was declared -/

section Assigning

theorem valueAs_of_isReference (x : Slot) (h : type.isReference = true) :
    x.valueAs type = x.value := by
  cases type with
  | primitive p => cases h
  | object category => rfl
  | array element => rfl

/-- A copy that is assigned gives its referent a holder like one that is declared. -/
theorem assign_declared (h : m.Awaits id name type w) (hf : m.stack.frame? id = some f)
    (hx : f.slot? source = some x) (ha : type.accepts x.type = true) :
    Memory.assign id name source (m.declared id name type w) = .ok []
      ((m.retained (x.valueAs type).referent?.toList).declared id name type (x.valueAs type)) := by
  obtain ⟨f', hf', hn, hfd, ht⟩ := h.found
  obtain rfl : f = f' := Option.some.inj (hf.symm.trans hf')
  have hs := h.sound.stack
  have hxd := Frame.slot?_push_of_some hx ⟨m.addresses.next, name, type, w⟩
  have hacc : requireAccepts name type x.type = .ok () := if_pos ha
  rw [Memory.assign, bind_ok (ask_ok (lookup_ok hfd ht)), bind_ok (ask_ok (lookup_ok hfd hxd)),
    bind_ok (ask_ok hacc)]
  dsimp only
  cases hr : type.isReference with
  | true =>
      have hlive := h.sound.isSome_get?_valueAs hf hx type
      rw [valueAs_of_isReference x hr] at hlive ⊢
      have hbind := rebind_of_referent?_eq_none h.sound_declared.stack hfd ht h.holds_none x.value
        false hlive
      have hwrite := written_declared (m := m.retained x.value.referent?.toList) hs hf hn type w
        x.value
      exact hbind.trans (congrArg _ hwrite)
  | false =>
      have hnone : (x.valueAs type).referent? = none := by
        refine Value.referent?_eq_none ?_
        rw [Slot.isReference_valueAs, ← h.sound.fitting x (Stack.mem_slots_of_slot? hf hx),
          ← DeclaredType.isReference_eq_of_accepts ha, hr]
      rw [hnone]
      have hput := overwrite_ok hfd ht (x.valueAs type)
      rw [written_declared hs hf hn] at hput
      exact bind_ok hput

theorem assignNull_declared (h : m.Awaits id name type w) (hr : type.isReference = true) :
    Memory.assignNull id name (m.declared id name type w) =
      .ok [] (m.declared id name type .null) := by
  obtain ⟨f, hf, hn, hfd, ht⟩ := h.found
  rw [Memory.assignNull, bind_ok (ask_ok (lookup_ok hfd ht))]
  dsimp only
  rw [hr]
  have hbind := rebind_of_referent?_eq_none h.sound_declared.stack hfd ht h.holds_none .null false
    fun a ha => absurd ha List.not_mem_nil
  exact hbind.trans (congrArg _ (written_declared h.sound.stack hf hn type w .null))

/-- The object comes after the variable. -/
theorem assignNew_declared (h : m.Awaits id name (.object category) w)
    (hroom : m.heap.hasRoom 1 = true) (hfree : m.heap.get? m.addresses.advance.next = none) :
    Memory.assignNew id name category fields (m.declared id name (.object category) w) =
      .ok m.addresses.advance.next
        (m.constructed id name category fields m.addresses.advance.next m.addresses.next) := by
  obtain ⟨f, hf, hn, hfd, ht⟩ := h.found
  have hbind := rebind_of_referent?_eq_none
    (m := (m.declared id name (.object category) w).allocated (.object category) (.object fields))
    h.sound_declared.stack hfd ht h.holds_none (.objectRef m.addresses.advance.next) true
    fun a ha => absurd ha List.not_mem_nil
  have hstack := congrArg Memory.stack (written_declared h.sound.stack hf hn (.object category) w
    (.objectRef m.addresses.advance.next))
  have hmemory : (((m.declared id name (.object category) w).allocated (.object category)
      (.object fields)).retained []).written id name (.objectRef m.addresses.advance.next) =
        m.constructed id name category fields m.addresses.advance.next m.addresses.next := by
    unfold written declared at hstack
    unfold written retained allocated declared constructed
    dsimp only at hstack ⊢
    rw [hstack]
    rfl
  exact (assignNew_ok hfd ht rfl hroom hfree hbind).trans (congrArg _ hmemory)

end Assigning

/-! ### Both ways agree -/

section Ways

/-- A literal. -/
theorem scalar_agree (h : m.Awaits id name (.primitive p) w) (hv : v.isReference = false) :
    Operation.Agree Eq (.declareScalar id name p v) m (.assignLiteral id name p v)
      (m.declared id name (.primitive p) w) := by
  obtain ⟨f, hf, hn, hfd, hx⟩ := h.found
  have hassign := assignLiteral_ok hfd hx rfl (DeclaredType.accepts_self (.primitive p)) hv
  refine .of_ok (map_ok _ (declareScalar_ok hf (requireFree_ok hf hn) hv)) (map_ok _ hassign) ?_
  exact (written_declared h.sound.stack hf hn (.primitive p) w (v.widen p)).symm

/-- Null. -/
theorem null_agree (h : m.Awaits id name type w) (hr : type.isReference = true) :
    Operation.Agree Eq (.declareNull id name type) m (.assignNull id name)
      (m.declared id name type w) := by
  obtain ⟨f, hf, hn, -⟩ := h.found
  exact .of_ok (map_ok _ (declareNull_ok hf (requireFree_ok hf hn) hr))
    (map_ok _ (assignNull_declared h hr)) rfl

/-- A copy of another variable. -/
theorem copy_agree (h : m.Awaits id name type w) (hne : source ≠ name) :
    Operation.Agree Eq (.declareCopy id name type source) m (.assign id name source)
      (m.declared id name type w) := by
  obtain ⟨f, hf, hn, hfd, ht⟩ := h.found
  refine .of_needs (C := ∃ x, f.slot? source = some x ∧ type.accepts x.type = true)
    (fun he => ?_) (fun he => ?_) ?_
  · obtain ⟨answer, m', hstep⟩ := (Operation.resolves_declareCopy h.sound).step he
    cases hstep with
    | @declareCopy _ _ _ _ f' x hf' _ hx ha =>
        obtain rfl : f = f' := Option.some.inj (hf.symm.trans hf')
        exact ⟨x, hx, ha⟩
  · -- The source is not the variable declared, so it was there before.
    have hold : ∀ {f' t x}, (m.declared id name type w).stack.frame? id = some f' →
        f'.slot? name = some t → f'.slot? source = some x → t.type.accepts x.type = true →
        ∃ x, f.slot? source = some x ∧ type.accepts x.type = true := by
      intro f' t x hf' ht' hx ha
      obtain rfl := Option.some.inj (hfd.symm.trans hf')
      obtain rfl := Option.some.inj (ht.symm.trans ht')
      exact ⟨x, Frame.slot?_of_push hx hne.symm, ha⟩
    obtain ⟨answer, m', hstep⟩ := (Operation.resolves_assign h.sound_declared).step he
    cases hstep with
    | assignValue hf' ht' hx ha => exact hold hf' ht' hx ha
    | assignReference hf' ht' hx ha => exact hold hf' ht' hx ha
  · rintro ⟨x, hx, ha⟩
    have hlive := h.sound.isSome_get?_valueAs hf hx type
    exact .of_ok (map_ok _ (declareCopy_ok hf (requireFree_ok hf hn) hx ha hlive))
      (map_ok _ (assign_declared h hf hx ha)) rfl

/-- A new object, whose address and that of the variable are exchanged. -/
theorem object_agree (h : m.Awaits id name (.object category) w)
    (hu : m.addresses.used < pow2 53) :
    Operation.Agree
      (fun m₁ m₂ =>
        m₁ = m.constructed id name category fields m.addresses.next m.addresses.advance.next ∧
        m₂ = m.constructed id name category fields m.addresses.advance.next m.addresses.next)
      (.declareObject id name category fields) m (.assignNew id name category fields)
      (m.declared id name (.object category) w) := by
  obtain ⟨f, hf, hn, hfd, ht⟩ := h.found
  have hfree := requireFree_ok hf hn
  have hlook := lookup_ok hfd ht
  rcases m.requireRoom_cases with ⟨e, he, hr⟩ | ⟨hroom, -⟩
  · have hdeclare : Refuses (Operation.declareObject id name category fields).run m :=
      refuses_map _ (refuses_bind (ask_ok hfree) (refuses_ask he hr))
    have hassign : Refuses (Operation.assignNew id name category fields).run
        (m.declared id name (.object category) w) := by
      refine refuses_map _ (refuses_bind (ask_ok hlook) ?_)
      dsimp only
      rw [if_neg (not_not_intro rfl)]
      exact refuses_ask (m := m.declared id name (.object category) w) he hr
    exact .of_refuses hdeclare hassign
  · have hnext := h.sound.intact.fresh hu
    have hlater := h.sound.intact.fresh_advance hu
    exact .of_ok (map_ok _ (declareObject_ok hf hfree hroom hnext))
      (map_ok _ (assignNew_declared h hroom hlater)) ⟨rfl, rfl⟩

end Ways

end Memory

end StackHeap.Store
