import StackHeap.Proofs.Store.Addresses
import StackHeap.Proofs.Store.Separation

/-! # What an operation leaves alone

An operation on the innermost frame changes little (`Step.touches`).

* **The stack** (`Stack.Touched`).  The innermost frame gets a slot at its end, or the slot that the
  operation names gets a value; all other frames stay as they are.  A frame that comes is empty, and
  only the innermost one goes.
* **The heap** (`Heap.Touched`).  Entries that stay keep all but their counts, and at most one is
  new.

Frames are found by number, slots by name and entries by address, so it is the distinctness of all
three that keeps a change to one place.  Over a run entries keep their contents because no address
comes back (`Supplied.uncounted_eq`). -/

namespace StackHeap.Store

open Number

/-! ### The stack -/

/-- What stays of a slot for good. -/
def Slot.place (x : Slot) : Address × String × DeclaredType := (x.address, x.name, x.type)

/-- A frame gets a slot, or its variable `target` gets a value. -/
inductive Frame.Changed (f : Frame) (target : Option String) : Frame → Prop where
  | declared (x : Slot) : f.Changed target (f.push x)
  | written {x : Slot} {l r : List Slot} (hs : f.slots = l ++ x :: r) (ht : target = some x.name)
      (v : Value) : f.Changed target { f with slots := l ++ { x with value := v } :: r }

namespace Frame.Changed

variable {f f' : Frame} {target : Option String} {x : Slot}

/-- Slots stay in place. -/
theorem places (hc : f.Changed target f') :
    f.slots.map Slot.place <+: f'.slots.map Slot.place := by
  cases hc with
  | declared x =>
      rw [Frame.push, List.map_append]
      exact List.prefix_append _ _
  | written hs ht v =>
      rw [hs, List.map_append, List.map_append]
      exact List.prefix_rfl

/-- A slot of another name stays as it is. -/
theorem mem_slots (hc : f.Changed target f') (hx : x ∈ f.slots) (hne : target ≠ some x.name) :
    x ∈ f'.slots := by
  cases hc with
  | declared y => exact List.mem_append_left _ hx
  | @written y l r hs ht v =>
      have hxy : x ≠ y := by
        rintro rfl
        exact hne ht
      rw [hs] at hx
      rcases List.mem_append.1 hx with hx | hx
      · exact List.mem_append_left _ hx
      · have hr := (List.mem_cons.1 hx).resolve_left hxy
        exact List.mem_append_right _ (List.mem_cons_of_mem _ hr)

end Frame.Changed

namespace Stack

variable {s s' : Stack} {target : Option String} {f f' : Frame} {id : Nat}

/-- What a change to the stack leaves alone. -/
structure Touched (s : Stack) (target : Option String) (s' : Stack) : Prop where
  frames : ∀ f ∈ s.frames, ∀ f' ∈ s'.frames, f'.id = f.id →
    f' = f ∨ f = s.current ∧ f.Changed target f'
  entered : ∀ f' ∈ s'.frames, f'.id ∉ s.ids → f'.slots = []
  left : ∀ f ∈ s.frames, f.id ∉ s'.ids → f = s.current

namespace Touched

theorem refl (hs : s.WellFormed) (target : Option String) : s.Touched target s where
  frames _ hf _ hf' hid := .inl (hs.eq_of_id hf hf' hid)
  entered _ hf' hn := absurd (List.mem_map_of_mem hf') hn
  left _ hf hn := absurd (List.mem_map_of_mem hf) hn

/-- A change to the innermost frame. -/
theorem update {g : Frame → Frame} (hs : s.WellFormed) (hg : ∀ f, (g f).id = f.id)
    (hc : s.current.Changed target (g s.current)) :
    s.Touched target (s.update s.current.id g) where
  frames f hf f' hf' hid := by
    rw [frames_update] at hf'
    obtain ⟨y, hy, rfl⟩ := List.mem_map.1 hf'
    split at hid
    · next hcur =>
        rw [hg] at hid
        have hyf := hs.eq_of_id hf hy hid
        have hyc := hs.eq_of_id s.current_mem hy hcur
        rw [if_pos hcur, ← hyf, hyc]
        exact .inr ⟨rfl, hc⟩
    · next hcur =>
        rw [if_neg hcur]
        exact .inl (hs.eq_of_id hf hy hid)
  entered f' hf' hn := by
    rw [← ids_update hg s s.current.id] at hn
    exact absurd (List.mem_map_of_mem hf') hn
  left f hf hn := by
    rw [ids_update hg] at hn
    exact absurd (List.mem_map_of_mem hf) hn

theorem push (hs : s.WellFormed) (target : Option String) (name : String) :
    s.Touched target (s.push name) where
  frames f hf f' hf' hid := by
    rw [frames_push] at hf'
    rcases List.mem_append.1 hf' with hf' | hf'
    · exact .inl (hs.eq_of_id hf hf' hid)
    · have hlt := hs.below f hf
      have hnew : s.nextId = f.id := by
        rw [← hid, List.mem_singleton.1 hf']
      omega
  entered f' hf' hn := by
    rw [frames_push] at hf'
    rcases List.mem_append.1 hf' with hf' | hf'
    · exact absurd (List.mem_map_of_mem hf') hn
    · rw [List.mem_singleton.1 hf']
  left f hf hn := by
    rw [ids_push] at hn
    exact absurd (List.mem_append_left _ (List.mem_map_of_mem hf)) hn

theorem pop (hs : s.WellFormed) (target : Option String) (hp : s.pop? = some (f, s')) :
    s.Touched target s' where
  frames _ hg _ hg' hid := .inl (hs.eq_of_id hg (mem_frames_of_pop? hp hg') hid)
  entered _ hg hn := absurd (List.mem_map_of_mem (mem_frames_of_pop? hp hg)) hn
  left g hg hn := by
    have hframes := frames_of_pop? hp
    rw [hframes] at hg
    rcases List.mem_append.1 hg with hg | hg
    · exact absurd (List.mem_map_of_mem hg) hn
    · rw [List.mem_singleton.1 hg, current_eq hframes]

/-- Slots stay in place. -/
theorem places (ht : s.Touched target s') (hf : f ∈ s.frames) (hf' : f' ∈ s'.frames)
    (hid : f'.id = f.id) : f.slots.map Slot.place <+: f'.slots.map Slot.place := by
  rcases ht.frames f hf f' hf' hid with rfl | ⟨-, hc⟩
  · exact List.prefix_rfl
  · exact hc.places

/-- A slot stays as it is unless it is that of the target in the innermost frame. -/
theorem mem_slots {x : Slot} (ht : s.Touched target s') (hf : f ∈ s.frames)
    (hf' : f' ∈ s'.frames) (hid : f'.id = f.id) (hx : x ∈ f.slots)
    (hne : ¬ (s.current.id = f.id ∧ target = some x.name)) : x ∈ f'.slots := by
  rcases ht.frames f hf f' hf' hid with rfl | ⟨rfl, hc⟩
  · exact hx
  · exact hc.mem_slots hx fun htarget => hne ⟨rfl, htarget⟩

end Touched

end Stack

/-! ### The heap -/

namespace Heap

variable {h h' : Heap} {e e' : Entry}

/-- What a change to the heap leaves alone. -/
structure Touched (h h' : Heap) : Prop where
  entries : ∀ e ∈ h.entries, ∀ e' ∈ h'.entries, e'.address = e.address →
    e'.uncounted = e.uncounted
  /-- Two entries that are new are the same. -/
  single : ∀ e₁ ∈ h'.entries, ∀ e₂ ∈ h'.entries, h.get? e₁.address = none →
    h.get? e₂.address = none → e₁ = e₂

/-- Entries are kept, and at most one is added. -/
inductive Extended (h h' : Heap) : Prop where
  | kept (hk : h.Kept h')
  | added {h₁ : Heap} {e : Entry} (hg : h.get? e.address = none) (hk : h.Kept h₁)
      (hk' : (h₁.appended e).Kept h')

theorem Kept.exists_uncounted (hk : h.Kept h') (he : e' ∈ h'.entries) :
    ∃ e ∈ h.entries, e.uncounted = e'.uncounted :=
  List.mem_map.1 (hk.entries.subset (List.mem_map_of_mem he))

theorem address_of_uncounted (he : e.uncounted = e'.uncounted) : e.address = e'.address := by
  have ha := congrArg Entry.address he
  exact ha

/-- Entries of one address are one entry. -/
theorem Distinct.eq_of_address (hd : h.Distinct) (he : e ∈ h.entries) (he' : e' ∈ h.entries)
    (ha : e'.address = e.address) : e' = e :=
  List.inj_on_of_nodup_map hd he' he ha

/-- An entry was there before, or it is the one added. -/
theorem Extended.cases_mem (hx : h.Extended h') :
    ∃ a : Option Address, (∀ b ∈ a, h.get? b = none) ∧ ∀ e' ∈ h'.entries,
      (∃ e ∈ h.entries, e.uncounted = e'.uncounted) ∨ some e'.address = a := by
  cases hx with
  | kept hk => exact ⟨none, by simp, fun e' he' => .inl (hk.exists_uncounted he')⟩
  | @added h₁ e hg hk hk' =>
      refine ⟨some e.address, by simpa using hg, ?_⟩
      intro e' he'
      obtain ⟨x, hx, hxe⟩ := hk'.exists_uncounted he'
      rcases List.mem_append.1 hx with hx | hx
      · obtain ⟨y, hy, hyx⟩ := hk.exists_uncounted hx
        exact .inl ⟨y, hy, hyx.trans hxe⟩
      · rw [List.mem_singleton.1 hx] at hxe
        exact .inr (congrArg some (address_of_uncounted hxe).symm)

theorem Extended.touched (hx : h.Extended h') (hd : h.Distinct) (hd' : h'.Distinct) :
    h.Touched h' := by
  obtain ⟨a, hnew, hmem⟩ := hx.cases_mem
  have hlive : ∀ e ∈ h.entries, h.get? e.address ≠ none := by
    intro e he
    rw [hd.get?_of_mem he]
    exact Option.some_ne_none e
  constructor
  · intro e he e' he' ha
    rcases hmem e' he' with ⟨y, hy, hye⟩ | hae
    · have hya : y.address = e.address := (address_of_uncounted hye).trans ha
      rw [← hye, hd.eq_of_address he hy hya]
    · have hnone := hnew e'.address hae.symm
      rw [ha] at hnone
      exact absurd hnone (hlive e he)
  · intro e₁ he₁ e₂ he₂ hn₁ hn₂
    have hadded : ∀ e' ∈ h'.entries, h.get? e'.address = none → some e'.address = a := by
      intro e' he' hn
      refine (hmem e' he').resolve_left ?_
      rintro ⟨y, hy, hye⟩
      apply hlive y hy
      rwa [address_of_uncounted hye]
    have ha := (hadded e₁ he₁ hn₁).trans (hadded e₂ he₂ hn₂).symm
    exact hd'.eq_of_address he₂ he₁ (Option.some.inj ha)

end Heap

/-! ### Operations -/

/-- The variable that an operation assigns to, if any. -/
def Operation.target? : Operation → Option String
  | assign _ target _ => some target
  | assignLiteral _ target _ _ => some target
  | assignNull _ target => some target
  | assignNew _ target _ _ => some target
  | _ => none

/-- What a change to the memory leaves alone. -/
structure Memory.Touched (m : Memory) (target : Option String) (m' : Memory) : Prop where
  stack : m.stack.Touched target m'.stack
  heap : m.heap.Touched m'.heap

/-- An allocation at an address where nothing is live. -/
theorem Heap.Extended.allocated {m : Memory} {h : Heap} {type : DeclaredType}
    {contents : Contents} (m₁ : Memory) (hg : m.heap.get? m₁.addresses.next = none)
    (hk : m.heap.Kept m₁.heap) (hk' : (m₁.allocated type contents).heap.Kept h) :
    m.heap.Extended h :=
  .added (e := ⟨m₁.addresses.next, type, contents, 1, m₁.heap.nextSequence⟩) hg hk hk'

section Steps

variable {m m' : Memory} {op : Operation} {answer : Answer} {name : String} {x : Slot} {v : Value}
  {taken : List Address} {collected : List Entry}

theorem touched_push (hs : m.stack.WellFormed) (target : Option String) (x : Slot) :
    m.stack.Touched target (m.stack.update m.stack.current.id (·.push x)) :=
  .update hs (fun _ => rfl) (.declared x)

theorem touched_write (hs : m.stack.WellFormed) (hx : m.stack.current.slot? name = some x)
    (v : Value) :
    m.stack.Touched (some name) (m.stack.update m.stack.current.id (·.write name v)) := by
  refine .update hs (fun _ => rfl) ?_
  have hn := hs.names _ m.stack.current_mem
  obtain ⟨l, r, hl, hw⟩ := Frame.exists_slots_write hn hx v
  have hframe : m.stack.current.write name v =
      { m.stack.current with slots := l ++ { x with value := v } :: r } := by
    rw [← hw]
    rfl
  rw [hframe]
  exact .written hl (congrArg some (Frame.name_of_slot? hx).symm) v

/-- A variable that shows something else is written, and the heap keeps its entries. -/
theorem Rebound.touched (hs : m.stack.WellFormed) (hx : m.stack.current.slot? name = some x)
    (hr : Rebound m m.stack.current.id name x.value v taken collected m') :
    m.stack.Touched (some name) m'.stack ∧ m.heap.Kept m'.heap := by
  cases hr with
  | same he => exact ⟨.refl hs _, .refl _⟩
  | changed hne hr =>
      exact ⟨touched_write hs hx v, (Heap.Kept.of_releaseAll hr).trans (.retained _ _)⟩

/-- **A step of the innermost frame touches the variable it names, and adds an entry at most.** -/
theorem Step.touched (hs : m.Sound []) (hfree : op.AddressFree)
    (hid : ∀ i, op.frame? = some i → i = m.stack.current.id) (h : Step m op answer m') :
    m.Touched op.target? m' := by
  have hd := hs.balanced.distinct
  have hd' := (h.sound hs hfree).balanced.distinct
  have hw := hs.stack
  suffices hsplit : m.stack.Touched op.target? m'.stack ∧ m.heap.Extended m'.heap from
    ⟨hsplit.1, hsplit.2.touched hd hd'⟩
  cases h with
  | declareScalar hf hn hv =>
      obtain rfl := hid _ rfl
      exact ⟨touched_push hw _ _, .kept (.refl _)⟩
  | declareNull hf hn ht =>
      obtain rfl := hid _ rfl
      exact ⟨touched_push hw _ _, .kept (.refl _)⟩
  | declareObject hf hn hr hg =>
      obtain rfl := hid _ rfl
      exact ⟨touched_push hw _ _, .allocated m hg (.refl _) (.refl _)⟩
  | declareArray hf hn hr hg hv =>
      obtain rfl := hid _ rfl
      exact ⟨touched_push hw _ _, .allocated (m.retained _) hg (.retained _ _) (.refl _)⟩
  | declareCopy hf hn hx ha =>
      obtain rfl := hid _ rfl
      exact ⟨touched_push hw _ _, .kept (.retained _ _)⟩
  | assignValue hf ht hx ha hp =>
      obtain rfl := hid _ rfl
      obtain rfl := hw.eq_current hf
      exact ⟨touched_write hw ht _, .kept (.refl _)⟩
  | assignReference hf ht hx ha hp hr =>
      obtain rfl := hid _ rfl
      obtain rfl := hw.eq_current hf
      obtain ⟨hstack, hkept⟩ := hr.touched hw ht
      exact ⟨hstack, .kept hkept⟩
  | assignLiteral hf ht hp ha hv =>
      obtain rfl := hid _ rfl
      obtain rfl := hw.eq_current hf
      exact ⟨touched_write hw ht _, .kept (.refl _)⟩
  | assignNull hf ht hp hr =>
      obtain rfl := hid _ rfl
      obtain rfl := hw.eq_current hf
      obtain ⟨hstack, hkept⟩ := hr.touched hw ht
      exact ⟨hstack, .kept hkept⟩
  | @assignNew _ _ category fields _ _ _ _ hf ht hp hroom hg hr =>
      obtain rfl := hid _ rfl
      obtain rfl := hw.eq_current hf
      obtain ⟨hstack, hkept⟩ :=
        Rebound.touched (m := m.allocated (.object category) (.object fields)) hw ht hr
      exact ⟨hstack, .allocated m hg (.refl _) hkept⟩
  | enter hdepth => exact ⟨.push hw _ _, .kept (.refl _)⟩
  | leave hp hr => exact ⟨.pop hw _ hp, .kept (.of_releaseAll hr)⟩

theorem Memory.Touched.refl (hs : m.Sound []) (target : Option String) : m.Touched target m :=
  ⟨.refl hs.stack target, (Heap.Extended.kept (.refl _)).touched hs.balanced.distinct
    hs.balanced.distinct⟩

end Steps

/-! ### Runs -/

section Runs

variable {m m' : Memory} {as : List Address} {e e' : Entry}

/-- An entry was there before, or its address was given. -/
theorem Memory.Moves.exists_uncounted (hm : m.Moves as m') (he : e' ∈ m'.heap.entries) :
    (∃ e ∈ m.heap.entries, e.uncounted = e'.uncounted) ∨ e'.address ∈ as := by
  induction hm with
  | refl m => exact .inl ⟨e', he, rfl⟩
  | @step m m₁ m' as bs hstep _ ih =>
      rcases ih he with ⟨x, hx, hxe⟩ | hmem
      · have hfirst : (∃ e ∈ m.heap.entries, e.uncounted = x.uncounted) ∨ x.address ∈ as := by
          cases hstep with
          | count hm => exact .inl (hm.kept.exists_uncounted hx)
          | allocate hr hg =>
              rcases List.mem_append.1 hx with hx | hx
              · exact .inl ⟨x, hx, rfl⟩
              · rw [List.mem_singleton.1 hx]
                exact .inr List.mem_cons_self
          | declare hf hn => exact .inl ⟨x, hx, rfl⟩
          | write hf hx' => exact .inl ⟨x, hx, rfl⟩
          | enter hd => exact .inl ⟨x, hx, rfl⟩
          | leave hp => exact .inl ⟨x, hx, rfl⟩
        rcases hfirst with ⟨y, hy, hyx⟩ | hmem
        · exact .inl ⟨y, hy, hyx.trans hxe⟩
        · rw [Heap.address_of_uncounted hxe] at hmem
          exact .inr (List.mem_append_left _ hmem)
      · exact .inr (List.mem_append_right _ hmem)

/-- **An entry keeps all but its count for as long as it lives.** -/
theorem Memory.Supplied.uncounted_eq (hs : m.Supplied) (hd : m.heap.Distinct)
    (hm : m.Moves as m') (hu : m'.addresses.used ≤ pow2 53) (he : e ∈ m.heap.entries)
    (he' : e' ∈ m'.heap.entries) (ha : e'.address = e.address) : e'.uncounted = e.uncounted := by
  rcases hm.exists_uncounted he' with ⟨x, hx, hxe⟩ | hmem
  · have hxa := (Heap.address_of_uncounted hxe).trans ha
    rw [← hxe, hd.eq_of_address he hx hxa]
  · -- The address of an entry that was there before is not given again.
    have hgiven : e.address ∈ m.given := List.mem_append_right _ (List.mem_map_of_mem he)
    rw [ha] at hmem
    exact absurd hmem (disjoint hm hu (hs.handed _ hgiven))

end Runs

end StackHeap.Store
