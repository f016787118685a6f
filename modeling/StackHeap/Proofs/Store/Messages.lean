import StackHeap.Proofs.Store.Balance
import StackHeap.Proofs.Store.Operation
import StackHeap.Proofs.Store.Slots
import StackHeap.Proofs.Typing.Messages
import StackHeap.Proofs.Value

/-! # What the memory tells

The memory tells of names, types and addresses that it holds.  If they are clear (`Memory.Tellable`),
then so is every error, and what an operation returns can be told as well; and they stay clear.  This
holds of any operation in any such memory, whether it is carried out or fails, and whatever the
reference counts are.

`Speaks` says so of a program on a state.  It is proved along the structure of the program, first for
the steps that operations are made of and then for each operation (`speaks_…`).  The name of a frame
may contain what a source contains, since the root frame is not named by a line. -/

namespace StackHeap

open Number Text Typing

/-! ### What can be told -/

/-- The address that a value may hold is clear. -/
def Value.Tellable (v : Value) : Prop := ∀ a ∈ v.referent?, Clear [] a.token

theorem Value.tellable_of_referent?_eq_none {v : Value} (h : v.referent? = none) : v.Tellable :=
  fun a ha => by cases h.symm.trans ha

namespace Store

/-- The addresses in an entry are clear. -/
structure Entry.Tellable (e : Entry) : Prop where
  address : Clear [] e.address.token
  references : ∀ a ∈ e.contents.references, Clear [] a.token

structure Slot.Tellable (x : Slot) : Prop where
  type : Clear [] x.type.text
  value : x.value.Tellable

structure Frame.Tellable (source : List Char) (f : Frame) : Prop where
  name : Clear source f.name
  slots : ∀ x ∈ f.slots, x.Tellable

def Heap.Tellable (h : Heap) : Prop := ∀ e ∈ h.entries, e.Tellable

/-- Names, types and addresses in a memory are clear, up to a source for the names of frames. -/
structure Memory.Tellable (source : List Char) (m : Memory) : Prop where
  frames : ∀ f ∈ m.stack.frames, f.Tellable source
  heap : m.heap.Tellable

variable {source : List Char} {name target category : String} {id : Nat} {type : DeclaredType}
  {value : Value} {a : Address} {h : Heap} {m : Memory} {fields : List Field}

theorem Memory.Tellable.new (config : Config) :
    (Memory.new config).Tellable config.rootFrame.toList where
  frames f hf := by
    rw [List.mem_singleton.1 hf]
    exact ⟨fun _ hc _ => hc, List.forall_mem_nil _⟩
  heap := List.forall_mem_nil _

theorem Memory.Tellable.mono {more : List Char} (hm : m.Tellable source) (hs : source ⊆ more) :
    m.Tellable more where
  frames f hf := ⟨(hm.frames f hf).name.mono hs, (hm.frames f hf).slots⟩
  heap := hm.heap

theorem Slot.Tellable.valueAs {x : Slot} (hx : x.Tellable) (type : DeclaredType) :
    (x.valueAs type).Tellable := fun a ha => hx.value a (Slot.referent?_valueAs x type ▸ ha)

theorem clear_next (s : Address.Supply) : Clear [] s.next.token := (Address.plain_ofSeed _).clear

/-! ### Programs on a state -/

section Programs

variable {σ α β : Type} {I : σ → Prop} {P : α → Prop} {Q : β → Prop}

/-- A program keeps `I`, its answer satisfies `P`, and the text of its error is clear. -/
def Speaks (source : List Char) (I : σ → Prop) (P : α → Prop) (op : EStateM MemoryError σ α) :
    Prop :=
  ∀ s, I s → match op s with
    | .ok a s' => P a ∧ I s'
    | .error e s' => Clear source e.message ∧ I s'

namespace Speaks

theorem pure {a : α} (ha : P a) : Speaks source I P (Pure.pure a) := fun _ hs => ⟨ha, hs⟩

theorem throw {e : MemoryError} (he : Clear source e.message) :
    Speaks source I P (MonadExcept.throw e : EStateM MemoryError σ α) := fun _ hs => ⟨he, hs⟩

theorem get : Speaks source I I (MonadState.get : EStateM MemoryError σ σ) := fun _ hs => ⟨hs, hs⟩

theorem set {s : σ} (hs : I s) :
    Speaks source I (fun _ => True) (MonadStateOf.set s : EStateM MemoryError σ PUnit) :=
  fun _ _ => ⟨trivial, hs⟩

theorem modify {f : σ → σ} (hf : ∀ s, I s → I (f s)) :
    Speaks source I (fun _ => True) (modifyThe σ f : EStateM MemoryError σ PUnit) :=
  fun s hs => ⟨trivial, hf s hs⟩

theorem bind {op : EStateM MemoryError σ α} {k : α → EStateM MemoryError σ β}
    (ho : Speaks source I P op) (hk : ∀ a, P a → Speaks source I Q (k a)) :
    Speaks source I Q (op >>= k) := by
  intro s hs
  have hop := ho s hs
  simp only [Bind.bind, EStateM.bind]
  cases hr : op s with
  | ok a s' =>
      rw [hr] at hop
      exact hk a hop.1 s' hop.2
  | error e s' =>
      rw [hr] at hop
      exact hop

theorem map {f : α → β} {op : EStateM MemoryError σ α} (ho : Speaks source I P op)
    (hf : ∀ a, P a → Q (f a)) : Speaks source I Q (f <$> op) := by
  intro s hs
  have hop := ho s hs
  simp only [Functor.map, EStateM.map]
  cases hr : op s with
  | ok a s' =>
      rw [hr] at hop
      exact ⟨hf a hop.1, hop.2⟩
  | error e s' =>
      rw [hr] at hop
      exact hop

/-- What comes after an error does not matter. -/
theorem throw_bind {e : MemoryError} {k : α → EStateM MemoryError σ β}
    (he : Clear source e.message) :
    Speaks source I Q ((MonadExcept.throw e : EStateM MemoryError σ α) >>= k) :=
  bind (throw (P := fun _ => False) he) fun _ h => h.elim

end Speaks

end Programs

/-! ### The heap -/

section Heap

theorem clear_dangling (ha : Clear [] a.token) :
    Clear source (MemoryError.broken (.dangling a)).message :=
  clear_append.2 ⟨Clear.lift (by decide), clear_append.2 ⟨Clear.lift (by decide), ha.lift⟩⟩

theorem clear_negativeCount (ha : Clear [] a.token) :
    Clear source (MemoryError.broken (.negativeCount a)).message :=
  clear_append.2 ⟨Clear.lift (by decide), clear_append.2 ⟨Clear.lift (by decide), ha.lift⟩⟩

theorem clear_allocatedTwice (ha : Clear [] a.token) :
    Clear source (MemoryError.broken (.allocatedTwice a)).message :=
  clear_append.2 ⟨Clear.lift (by decide), clear_between (by decide) ha.lift (by decide)⟩

theorem clear_outOfHeap (limit : Nat) : Clear source (MemoryError.outOfHeap limit).message :=
  clear_between (by decide) (clear_naturalText limit) (by decide)

theorem Heap.Tellable.updateRefs (hh : h.Tellable) (a : Address) (f : Nat → Nat) :
    (h.updateRefs a f).Tellable := by
  intro e he
  obtain ⟨e', he', rfl⟩ := List.mem_map.1 he
  exact ⟨Entry.address_updateRefs a f e' ▸ (hh e' he').address,
    Entry.contents_updateRefs a f e' ▸ (hh e' he').references⟩

theorem Heap.Tellable.remove (hh : h.Tellable) (a : Address) : (h.remove a).Tellable :=
  fun e he => hh e (List.mem_filter.1 he).1

theorem speaks_allocate (ha : Clear [] a.token) {contents : Contents}
    (hc : ∀ b ∈ contents.references, Clear [] b.token) :
    Speaks source Heap.Tellable (fun _ => True) (Heap.allocate a type contents) := by
  refine .bind .get fun h hh => ?_
  have hset : Speaks source Heap.Tellable (fun _ => True) (do
      if h.contains a then throw (.broken (.allocatedTwice a))
      set { h with
        entries := h.entries ++ [(⟨a, type, contents, 1, h.nextSequence⟩ : Entry)]
        nextSequence := h.nextSequence + 1 } : HeapM Unit) := by
    dsimp only
    split
    · exact .throw_bind (clear_allocatedTwice ha)
    · refine .set fun e he => ?_
      rcases List.mem_append.1 he with he | he
      · exact hh e he
      · rw [List.mem_singleton.1 he]
        exact ⟨ha, hc⟩
  dsimp only
  split
  · exact .throw_bind (clear_outOfHeap _)
  · exact hset

theorem speaks_retain (ha : Clear [] a.token) :
    Speaks source Heap.Tellable (fun _ => True) (Heap.retain a) := by
  refine .bind .get fun h hh => ?_
  split
  · exact .throw (clear_dangling ha)
  · exact .bind (.modify fun h hh => hh.updateRefs a _) fun _ _ => .pure trivial

theorem speaks_retainAll {as : List Address} (has : ∀ a ∈ as, Clear [] a.token) :
    Speaks source Heap.Tellable (fun _ => True) (Heap.retainAll as) := by
  induction as with
  | nil => exact .pure trivial
  | cons a as ih =>
      rw [List.forall_mem_cons] at has
      exact .bind (speaks_retain has.1) fun _ _ => ih has.2

/-- Everything released or collected is held in the heap. -/
theorem speaks_releaseAll {pending : List Address} (hp : ∀ a ∈ pending, Clear [] a.token) :
    Speaks source Heap.Tellable (fun es => ∀ e ∈ es, e.Tellable) (·.releaseAll pending) := by
  intro h hh
  dsimp only
  induction h, pending using Heap.releaseAll.induct with
  | case1 h =>
      rw [Heap.releaseAll_nil]
      exact ⟨List.forall_mem_nil _, hh⟩
  | case2 h a pending hg =>
      rw [Heap.releaseAll_dangling hg]
      exact ⟨clear_dangling (List.forall_mem_cons.1 hp).1, hh⟩
  | case3 h a pending e hg hz =>
      rw [Heap.releaseAll_negative hg hz]
      exact ⟨clear_negativeCount (List.forall_mem_cons.1 hp).1, hh⟩
  | case4 h a pending e hg hz h1 collected h₁ heq ih =>
      have he := hh e (Heap.mem_of_get? hg)
      have hrefs := List.forall_mem_append.2 ⟨he.references, (List.forall_mem_cons.1 hp).2⟩
      have hrest := ih hrefs (hh.remove a)
      rw [heq] at hrest
      rw [Heap.releaseAll_collect hg h1, heq]
      exact ⟨List.forall_mem_cons.2 ⟨⟨he.address, he.references⟩, hrest.1⟩, hrest.2⟩
  | case5 h a pending e hg hz h1 fault h₁ heq ih =>
      have he := hh e (Heap.mem_of_get? hg)
      have hrefs := List.forall_mem_append.2 ⟨he.references, (List.forall_mem_cons.1 hp).2⟩
      have hrest := ih hrefs (hh.remove a)
      rw [heq] at hrest
      rw [Heap.releaseAll_collect hg h1, heq]
      exact hrest
  | case6 h a pending e hg hz h1 ih =>
      rw [Heap.releaseAll_lower hg (by omega)]
      exact ih (List.forall_mem_cons.1 hp).2 (hh.updateRefs a _)

theorem speaks_release (ha : Clear [] a.token) :
    Speaks source Heap.Tellable (fun es => ∀ e ∈ es, e.Tellable) (Heap.release a) :=
  speaks_releaseAll (List.forall_mem_singleton.2 ha)

theorem speaks_releaseEach {as : List Address} (has : ∀ a ∈ as, Clear [] a.token) :
    Speaks source Heap.Tellable (fun es => ∀ e ∈ es, e.Tellable) (Memory.releaseEach as) := by
  induction as with
  | nil => exact .pure (List.forall_mem_nil _)
  | cons a as ih =>
      rw [List.forall_mem_cons] at has
      refine .bind (speaks_release has.1) fun es hes => .bind (ih has.2) fun more hmore => ?_
      exact .pure (List.forall_mem_append.2 ⟨hes, hmore⟩)

end Heap

/-! ### Steps on the memory -/

section Steps

variable {α : Type} {P : α → Prop}

theorem Speaks.ask {question : Memory → Except MemoryError α}
    (hq : ∀ m, m.Tellable source → Tells source MemoryError.message P (question m)) :
    Speaks source (Memory.Tellable source) P (Memory.ask question) := by
  intro m hm
  have hask := hq m hm
  unfold Memory.ask
  cases hr : question m with
  | ok a =>
      rw [hr] at hask
      exact ⟨hask, hm⟩
  | error e =>
      rw [hr] at hask
      exact ⟨hask, hm⟩

theorem Speaks.onHeap {op : HeapM α} (ho : Speaks source Heap.Tellable P op) :
    Speaks source (Memory.Tellable source) P (Memory.onHeap op) := by
  intro m hm
  have hop := ho m.heap hm.heap
  unfold Memory.onHeap
  cases hr : op m.heap with
  | ok a h =>
      rw [hr] at hop
      exact ⟨hop.1, hm.frames, hop.2⟩
  | error e h =>
      rw [hr] at hop
      exact ⟨hop.1, hm.frames, hop.2⟩

theorem speaks_freshAddress :
    Speaks source (Memory.Tellable source) (fun a => Clear [] a.token) Memory.freshAddress :=
  fun m hm => ⟨clear_next m.addresses, hm.frames, hm.heap⟩

/-- A change to the frame of a number. -/
theorem Memory.Tellable.update (hm : m.Tellable source) {g : Frame → Frame}
    (hg : ∀ f : Frame, f.Tellable source → (g f).Tellable source) :
    Memory.Tellable source { m with stack := m.stack.update id g } where
  frames f hf := by
    obtain ⟨f', hf', rfl⟩ := List.mem_map.1 (Stack.frames_update m.stack id g ▸ hf)
    split
    · exact hg f' (hm.frames f' hf')
    · exact hm.frames f' hf'
  heap := hm.heap

theorem tells_frame (hm : m.Tellable source) (id : Nat) :
    Tells source MemoryError.message (Frame.Tellable source) (m.frame id) := by
  unfold Memory.frame
  split
  · next hf => exact hm.frames _ (Stack.mem_of_frame? hf)
  · exact clear_append.2 ⟨Clear.lift (by decide), clear_naturalText id⟩

theorem clear_inFrame {front : String} (hf : Clear [] front) (hn : Clear [] name) {words frame : String}
    (hw : Clear [] words) (hframe : Clear source frame) :
    Clear source (front ++ name ++ words ++ frame ++ "'") :=
  clear_append.2 ⟨clear_append.2 ⟨clear_between hf hn.lift hw, hframe⟩, Clear.lift (by decide)⟩

theorem tells_lookup (hm : m.Tellable source) (id : Nat) (hn : Clear [] name) :
    Tells source MemoryError.message Slot.Tellable (m.lookup id name) := by
  refine (tells_frame hm id).bind fun f hf => ?_
  split
  · next hx => exact hf.slots _ (Frame.mem_of_slot? hx)
  · exact clear_inFrame (by decide) hn (by decide) hf.name

theorem tells_requireFree (hm : m.Tellable source) (id : Nat) (hn : Clear [] name) :
    Tells source MemoryError.message (fun _ => True) (m.requireFree id name) := by
  refine (tells_frame hm id).bind fun f hf => ?_
  split
  · exact clear_inFrame (by decide) hn (by decide) hf.name
  · trivial

theorem tells_requireRoom (m : Memory) :
    Tells source MemoryError.message (fun _ => True) m.requireRoom := by
  unfold Memory.requireRoom
  split
  · trivial
  · exact clear_outOfHeap _

theorem clear_incompatible {offer : Offer} (hn : Clear [] target) (ht : Clear [] type.text)
    (ho : Clear source offer.text) :
    Clear source (MemoryError.incompatible target type offer).message := by
  unfold MemoryError.message
  simp (disch := first | decide | assumption) [ho, Clear.lift]

theorem tells_requireAccepts {given : DeclaredType} (hn : Clear [] target) (ht : Clear [] type.text)
    (hs : Clear [] given.text) :
    Tells source MemoryError.message (fun _ => True) (Memory.requireAccepts target type given) := by
  unfold Memory.requireAccepts
  split
  · trivial
  · exact clear_incompatible hn ht hs.lift

theorem speaks_pushSlot (id : Nat) (name : String) (ht : Clear [] type.text) (hv : value.Tellable) :
    Speaks source (Memory.Tellable source) (fun a => Clear [] a.token)
      (Memory.pushSlot id name type value) := by
  refine .bind speaks_freshAddress fun a ha => .bind (.ask fun m hm => tells_frame hm id) fun _ _ => ?_
  refine .bind (.modify fun m hm => hm.update fun f hf => ⟨hf.name, ?_⟩) fun _ _ => .pure ha
  exact List.forall_mem_append.2 ⟨hf.slots, List.forall_mem_singleton.2 ⟨ht, hv⟩⟩

theorem speaks_overwrite (id : Nat) (hn : Clear [] target) (hv : value.Tellable) :
    Speaks source (Memory.Tellable source) (fun _ => True) (Memory.overwrite id target value) := by
  refine .bind (.ask fun m hm => tells_lookup hm id hn) fun _ _ => ?_
  refine .modify fun m hm => hm.update fun f hf => ⟨hf.name, fun x hx => ?_⟩
  obtain ⟨y, hy, rfl⟩ := List.mem_map.1 hx
  split
  · exact ⟨(hf.slots y hy).type, hv⟩
  · exact hf.slots y hy

theorem speaks_rebind (id : Nat) (hn : Clear [] target) (hv : value.Tellable) (counted : Bool) :
    Speaks source (Memory.Tellable source) (fun es => ∀ e ∈ es, e.Tellable)
      (Memory.rebind id target value counted) := by
  -- Both branches of each choice end in the same rest.
  have hwrite : ∀ es : List Entry, (∀ e ∈ es, e.Tellable) →
      Speaks source (Memory.Tellable source) (fun es => ∀ e ∈ es, e.Tellable)
        (do Memory.overwrite id target value; Pure.pure es : MemoryM (List Entry)) :=
    fun es hes => .bind (speaks_overwrite id hn hv) fun _ _ => .pure hes
  have hrest : ∀ es : List Entry, (∀ e ∈ es, e.Tellable) →
      Speaks source (Memory.Tellable source) (fun es => ∀ e ∈ es, e.Tellable) (do
        if !counted then Memory.onHeap (Heap.retainAll value.referent?.toList)
        Memory.overwrite id target value
        Pure.pure es : MemoryM (List Entry)) := by
    intro es hes
    cases counted with
    | true => exact hwrite es hes
    | false =>
        refine .bind (.onHeap (speaks_retainAll fun a ha => ?_)) fun _ _ => hwrite es hes
        exact hv a (Option.mem_toList.1 ha)
  have hnil : ∀ e ∈ ([] : List Entry), e.Tellable := List.forall_mem_nil _
  refine .bind (.ask fun m hm => tells_lookup hm id hn) fun s hs => ?_
  dsimp only
  split
  · exact .pure hnil
  · split
    · next a ha => exact .bind (.onHeap (speaks_release (hs.value a ha))) hrest
    · exact .bind (.pure hnil) hrest

end Steps

/-! ### Operations -/

section Operations

theorem speaks_requireFree (id : Nat) (hn : Clear [] name) :
    Speaks source (Memory.Tellable source) (fun _ => True) (Memory.ask (·.requireFree id name)) :=
  .ask fun _ hm => tells_requireFree hm id hn

theorem speaks_requireRoom :
    Speaks source (Memory.Tellable source) (fun _ => True) (Memory.ask (·.requireRoom)) :=
  .ask fun m _ => tells_requireRoom m

theorem speaks_lookup (id : Nat) (hn : Clear [] name) :
    Speaks source (Memory.Tellable source) Slot.Tellable (Memory.ask (·.lookup id name)) :=
  .ask fun _ hm => tells_lookup hm id hn

theorem speaks_declareScalar (id : Nat) (hn : Clear [] name) (p : Primitive)
    (hv : value.referent? = none) :
    Speaks source (Memory.Tellable source) (fun a => Clear [] a.token)
      (Memory.declareScalar id name p value) := by
  refine .bind (speaks_requireFree id hn) fun _ _ => ?_
  dsimp only
  split
  · exact .throw_bind (clear_incompatible hn (clear_name p) (Clear.lift (by decide)))
  · refine speaks_pushSlot id name (clear_name p) (Value.tellable_of_referent?_eq_none ?_)
    rw [Value.referent?_widen, hv]

theorem speaks_declareNull (id : Nat) (hn : Clear [] name) (ht : Clear [] type.text) :
    Speaks source (Memory.Tellable source) (fun a => Clear [] a.token)
      (Memory.declareNull id name type) := by
  refine .bind (speaks_requireFree id hn) fun _ _ => ?_
  dsimp only
  split
  · exact .throw_bind (clear_incompatible hn ht (Clear.lift (by decide)))
  · exact speaks_pushSlot id name ht (Value.tellable_of_referent?_eq_none rfl)

theorem tellable_objectRef (ha : Clear [] a.token) : (Value.objectRef a).Tellable :=
  fun _ hb => Option.some.inj hb ▸ ha

theorem tellable_arrayRef (ha : Clear [] a.token) : (Value.arrayRef a).Tellable :=
  fun _ hb => Option.some.inj hb ▸ ha

theorem speaks_declareObject (id : Nat) (hn : Clear [] name) (hc : Clear [] category)
    (hf : ∀ a ∈ (Contents.object fields).references, Clear [] a.token) :
    Speaks source (Memory.Tellable source) (fun a => Clear [] a.token)
      (Memory.declareObject id name category fields) := by
  refine .bind (speaks_requireFree id hn) fun _ _ => .bind speaks_requireRoom fun _ _ => ?_
  refine .bind speaks_freshAddress fun a ha => .bind (.onHeap (speaks_allocate ha hf)) fun _ _ => ?_
  exact .bind (speaks_pushSlot id name hc (tellable_objectRef ha)) fun _ _ => .pure ha

theorem clear_elementName (hn : Clear [] name) (index : Nat) :
    Clear [] (Memory.elementName name index) :=
  clear_append.2 ⟨clear_append.2 ⟨clear_append.2 ⟨hn, by decide⟩, clear_naturalText index⟩, by decide⟩

theorem tells_elementValues (hm : m.Tellable source) (id : Nat) (hn : Clear [] name)
    (ht : Clear [] type.text) (index : Nat) {elements : List Element}
    (he : ∀ e ∈ elements, ElementNamed e ∧ ∀ v, e = .value v → v.referent? = none) :
    Tells source MemoryError.message (fun vs => ∀ v ∈ vs, v.Tellable)
      (m.elementValues id name type index elements) := by
  induction elements generalizing index with
  | nil => exact List.forall_mem_nil _
  | cons e elements ih =>
      rw [List.forall_mem_cons] at he
      have hrest := ih (index + 1) he.2
      cases e with
      | value v =>
          have hv := Value.tellable_of_referent?_eq_none (he.1.2 v rfl)
          exact hrest.bind fun vs hvs => List.forall_mem_cons.2 ⟨hv, hvs⟩
      | «variable» given =>
          refine (tells_lookup hm id he.1.1).bind fun x hx => ?_
          refine (tells_requireAccepts (clear_elementName hn index) ht hx.type).bind fun _ _ => ?_
          exact hrest.bind fun vs hvs => List.forall_mem_cons.2 ⟨hx.valueAs type, hvs⟩

theorem speaks_declareArray (id : Nat) (hn : Clear [] name) (ht : Clear [] type.text)
    {elements : List Element}
    (he : ∀ e ∈ elements, ElementNamed e ∧ ∀ v, e = .value v → v.referent? = none) :
    Speaks source (Memory.Tellable source) (fun a => Clear [] a.token)
      (Memory.declareArray id name type elements) := by
  refine .bind (speaks_requireFree id hn) fun _ _ => .bind speaks_requireRoom fun _ _ => ?_
  refine .bind (.ask fun m hm => tells_elementValues hm id hn ht 0 he) fun values hv => ?_
  have hrefs : ∀ a ∈ values.filterMap Value.referent?, Clear [] a.token := by
    intro a ha
    obtain ⟨v, hmem, hva⟩ := List.mem_filterMap.1 ha
    exact hv v hmem a hva
  have htype : Clear [] (DeclaredType.array type).text := clear_append.2 ⟨ht, by decide⟩
  refine .bind (.onHeap (speaks_retainAll hrefs)) fun _ _ => .bind speaks_freshAddress fun a ha => ?_
  refine .bind (.onHeap (speaks_allocate ha hrefs)) fun _ _ => ?_
  exact .bind (speaks_pushSlot id name htype (tellable_arrayRef ha)) fun _ _ => .pure ha

theorem speaks_declareCopy (id : Nat) (hn : Clear [] name) (ht : Clear [] type.text) {given : String}
    (hg : Clear [] given) :
    Speaks source (Memory.Tellable source) (fun a => Clear [] a.token)
      (Memory.declareCopy id name type given) := by
  refine .bind (speaks_requireFree id hn) fun _ _ => .bind (speaks_lookup id hg) fun s hs => ?_
  refine .bind (.ask fun _ _ => tells_requireAccepts hn ht hs.type) fun _ _ => ?_
  refine .bind (.onHeap (speaks_retainAll fun a ha => ?_)) fun _ _ => ?_
  · exact hs.valueAs type a (Option.mem_toList.1 ha)
  · exact speaks_pushSlot id name ht (hs.valueAs type)

theorem speaks_assign (id : Nat) (hn : Clear [] target) {given : String} (hg : Clear [] given) :
    Speaks source (Memory.Tellable source) (fun es => ∀ e ∈ es, e.Tellable)
      (Memory.assign id target given) := by
  refine .bind (speaks_lookup id hn) fun t ht => .bind (speaks_lookup id hg) fun s hs => ?_
  refine .bind (.ask fun _ _ => tells_requireAccepts hn ht.type hs.type) fun _ _ => ?_
  split
  · exact speaks_rebind id hn hs.value false
  · refine .bind (speaks_overwrite id hn (hs.valueAs t.type)) fun _ _ => .pure ?_
    exact List.forall_mem_nil _

theorem speaks_assignLiteral (id : Nat) (hn : Clear [] target) (p : Primitive)
    (hv : value.referent? = none) :
    Speaks source (Memory.Tellable source) (fun _ => True)
      (Memory.assignLiteral id target p value) := by
  refine .bind (speaks_lookup id hn) fun t ht => ?_
  split
  · refine speaks_overwrite id hn (Value.tellable_of_referent?_eq_none ?_)
    rw [Value.referent?_widen, hv]
  · exact .throw (clear_incompatible hn ht.type (clear_name p).lift)

theorem speaks_assignNull (id : Nat) (hn : Clear [] target) :
    Speaks source (Memory.Tellable source) (fun es => ∀ e ∈ es, e.Tellable)
      (Memory.assignNull id target) := by
  refine .bind (speaks_lookup id hn) fun t ht => ?_
  dsimp only
  split
  · exact .throw_bind (clear_incompatible hn ht.type (Clear.lift (by decide)))
  · exact speaks_rebind id hn (Value.tellable_of_referent?_eq_none rfl) false

theorem speaks_assignNew (id : Nat) (hn : Clear [] target) (hc : Clear [] category)
    (hf : ∀ a ∈ (Contents.object fields).references, Clear [] a.token) :
    Speaks source (Memory.Tellable source) (fun a => Clear [] a.token)
      (Memory.assignNew id target category fields) := by
  refine .bind (speaks_lookup id hn) fun t ht => ?_
  dsimp only
  split
  · exact .throw_bind (clear_incompatible hn ht.type hc.lift)
  · refine .bind speaks_requireRoom fun _ _ => .bind speaks_freshAddress fun a ha => ?_
    refine .bind (.onHeap (speaks_allocate ha hf)) fun _ _ => ?_
    exact .bind (speaks_rebind id hn (tellable_objectRef ha) true) fun _ _ => .pure ha

theorem speaks_enter (hn : Clear [] name) :
    Speaks source (Memory.Tellable source) (fun _ => True) (Memory.enter name) := by
  refine .bind .get fun m hm => ?_
  dsimp only
  split
  · exact .throw_bind (clear_between (by decide) (clear_naturalText _) (by decide))
  · refine .bind (.set ⟨fun f hf => ?_, hm.heap⟩) fun _ _ => .pure trivial
    rw [Stack.frames_push] at hf
    rcases List.mem_append.1 hf with hf | hf
    · exact hm.frames f hf
    · rw [List.mem_singleton.1 hf]
      exact ⟨hn.lift, List.forall_mem_nil _⟩

theorem speaks_leave :
    Speaks source (Memory.Tellable source)
      (fun r => r.1.Tellable source ∧ ∀ e ∈ r.2, e.Tellable) Memory.leave := by
  refine .bind .get fun m hm => ?_
  split
  · have hroot := hm.frames m.stack.root List.mem_cons_self
    exact .throw (clear_between (by decide) hroot.name (by decide))
  · next frame stack hp =>
      have hframe : frame.Tellable source :=
        hm.frames frame (Stack.frames_of_pop? hp ▸ List.mem_append_right _ (List.mem_singleton.2 rfl))
      have hrefs : ∀ a ∈ frame.references, Clear [] a.token := by
        intro a ha
        obtain ⟨x, hx, hxa⟩ := List.mem_filterMap.1 ha
        exact (hframe.slots x hx).value a hxa
      refine .bind (.onHeap (speaks_releaseEach hrefs)) fun es hes => ?_
      refine .bind (.modify fun m' hm' => ⟨fun f hf => ?_, hm'.heap⟩) fun _ _ => .pure ⟨hframe, hes⟩
      exact hm.frames f (Stack.mem_frames_of_pop? hp hf)

end Operations

end Store

end StackHeap
