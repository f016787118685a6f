import StackHeap.Proofs.Store.Separation

/-! # What an operation collects

A release collects entries that were live, each of them once, and no others go
(`contains_iff_of_releaseAll`).  An operation that takes holders away releases what it drops: the
entry that a variable showed before it is assigned to, or those that the variables of a frame show
when it is left (`Operation.dropped`).

From it follows what an operation collects (`Step.loses`): exactly the entries that were live before
and are not afterwards, each of them once.  The answer of an operation has these entries in the
order in which they were collected, with one exception: the assignment of a new object answers with
the new address alone. -/

namespace StackHeap.Store

namespace Heap

variable {h h' : Heap} {pending : List Address} {collected : List Entry}

/-! ### Releases -/

theorem contains_remove (h : Heap) (a b : Address) :
    (h.remove a).contains b = true ↔ b ≠ a ∧ h.contains b = true := by
  simp only [contains, get?_remove]
  split
  · next hb => simp [hb]
  · next hb => simp [hb]

theorem contains_appended (h : Heap) (e : Entry) (a : Address) :
    (h.appended e).contains a = true ↔ h.contains a = true ∨ e.address = a := by
  simp [contains, get?, appended, List.find?_append]

/-- What is live after a release was live before and was not collected. -/
theorem contains_iff_of_releaseAll (hr : h.releaseAll pending = .ok collected h') (b : Address) :
    h'.contains b = true ↔ h.contains b = true ∧ b ∉ collected.map (·.address) := by
  refine releaseAll_ok_induct (motive := fun h _ collected => h'.contains b = true ↔
    h.contains b = true ∧ b ∉ collected.map (·.address)) (by simp) ?_ ?_ hr
  · intro h a e pending collected hg h1 ih
    rw [ih, List.map_cons, Entry.uncounted, address_of_get? hg, List.mem_cons, not_or]
    rw [contains_remove]
    tauto
  · intro h a e pending collected hg h1 ih
    rw [ih]
    simp only [contains, isSome_get?_updateRefs]

/-- What a release collects was live, and is collected once. -/
theorem live_and_nodup_of_releaseAll (hr : h.releaseAll pending = .ok collected h') :
    (∀ a ∈ collected.map (·.address), h.contains a = true) ∧
      (collected.map (·.address)).Nodup := by
  refine releaseAll_ok_induct (motive := fun h _ collected =>
    (∀ a ∈ collected.map (·.address), h.contains a = true) ∧
      (collected.map (·.address)).Nodup) ⟨by simp, List.nodup_nil⟩ ?_ ?_ hr
  · rintro h a e pending collected hg h1 ⟨hlive, hnodup⟩
    rw [List.map_cons, Entry.uncounted, address_of_get? hg]
    constructor
    · intro b hb
      rcases List.mem_cons.1 hb with rfl | hb
      · rw [contains, hg]
        rfl
      · exact ((contains_remove h a b).1 (hlive b hb)).2
    · -- What is collected later was live when the first entry was gone.
      refine List.nodup_cons.2 ⟨fun ha => ?_, hnodup⟩
      exact ((contains_remove h a a).1 (hlive a ha)).1 rfl
  · rintro h a e pending collected hg h1 ⟨hlive, hnodup⟩
    refine ⟨fun b hb => ?_, hnodup⟩
    have hl := hlive b hb
    rwa [contains, isSome_get?_updateRefs] at hl

/-! ### What goes between two heaps -/

/-- Between two heaps the entries at `as` went, and no others, each once and in the order in which
they were collected when holders of `dropped` went. -/
structure Loses (h h' : Heap) (dropped as : List Address) : Prop where
  nodup : as.Nodup
  mem_iff : ∀ a, a ∈ as ↔ h.contains a = true ∧ h'.contains a = false
  order : as = [] ∨ ∃ (h₀ h₁ : Heap) (collected : List Entry), h.entries <+: h₀.entries ∧
    h₀.releaseAll dropped = .ok collected h₁ ∧ as = collected.map (·.address)

/-- Nothing goes if all that was live stays live. -/
theorem Loses.of_live (hl : ∀ a, h.contains a = true → h'.contains a = true)
    (dropped : List Address) : h.Loses h' dropped [] where
  nodup := List.nodup_nil
  mem_iff a := by
    constructor
    · exact fun ha => absurd ha List.not_mem_nil
    · rintro ⟨ha, hn⟩
      rw [hl a ha] at hn
      cases hn
  order := .inl rfl

/-- A release from a heap to which entries may have been added, none of which goes. -/
theorem Loses.of_releaseAll {h₀ h₁ : Heap} (hp : h.entries <+: h₀.entries)
    (hnew : ∀ a, h₀.contains a = true → h.contains a = true ∨ h₁.contains a = true)
    (hr : h₀.releaseAll pending = .ok collected h₁)
    (hsame : ∀ a, h'.contains a = h₁.contains a) :
    h.Loses h' pending (collected.map (·.address)) where
  nodup := (live_and_nodup_of_releaseAll hr).2
  mem_iff a := by
    have hold : h.contains a = true → h₀.contains a = true := by
      intro ha
      obtain ⟨e, he⟩ := Option.isSome_iff_exists.1 ha
      have hmem := hp.subset (mem_of_get? he)
      rw [contains, get?, List.find?_isSome]
      exact ⟨e, hmem, by simpa using address_of_get? he⟩
    have hiff := contains_iff_of_releaseAll hr a
    rw [hsame, ← Bool.not_eq_true]
    constructor
    · intro ha
      have hgone : ¬h₁.contains a = true := fun hc => (hiff.1 hc).2 ha
      have hlive := (live_and_nodup_of_releaseAll hr).1 a ha
      exact ⟨(hnew a hlive).resolve_right hgone, hgone⟩
    · rintro ⟨ha, hgone⟩
      by_contra hn
      exact hgone (hiff.2 ⟨hold ha, hn⟩)
  order := .inr ⟨h₀, h₁, collected, hp, hr, rfl⟩

end Heap

/-! ### Operations -/

/-- The addresses of which an operation takes a holder away, one after the other. -/
def Operation.dropped (m : Memory) : Operation → List Address
  | assign id target _ => ((m.lookup id target).toOption.bind (·.value.referent?)).toList
  | assignNull id target => ((m.lookup id target).toOption.bind (·.value.referent?)).toList
  | assignNew id target _ _ => ((m.lookup id target).toOption.bind (·.value.referent?)).toList
  | leave => m.stack.current.references
  | _ => []

/-- Whether the operation assigns a new object. -/
def Operation.assignsNew : Operation → Bool
  | assignNew _ _ _ _ => true
  | _ => false

/-- The collected entries of which an answer tells. -/
def Answer.collectedEntries : Answer → List Entry
  | collected entries => entries
  | left _ entries => entries
  | _ => []

section Steps

variable {m m' : Memory} {op : Operation} {answer : Answer} {id : Nat} {name : String} {f : Frame}
  {x : Slot} {v : Value} {taken : List Address} {collected : List Entry}

theorem dropped_of_slot? (hf : m.stack.frame? id = some f) (hx : f.slot? name = some x) :
    ((m.lookup id name).toOption.bind (·.value.referent?)).toList = x.value.referent?.toList := by
  rw [Memory.lookup_ok hf hx]
  rfl

theorem mem_references_written {a : Address} (hf : m.stack.frame? id = some f)
    (hx : f.slot? name = some x) (hv : v.referent? = some a) :
    a ∈ (m.written id name v).stack.references :=
  Stack.mem_references_of_slot? (Stack.frame?_update (g := (·.write name v)) (fun _ => rfl) hf)
    (Frame.slot?_write hx v) hv

theorem Rebound.loses (h : Rebound m id name x.value v taken collected m') :
    m.heap.Loses m'.heap x.value.referent?.toList (collected.map (·.address)) := by
  cases h with
  | same he => exact .of_live (fun a ha => ha) _
  | changed hne hr =>
      refine .of_releaseAll List.prefix_rfl (fun a ha => .inl ha) hr fun a => ?_
      exact Heap.isSome_get?_retained _ _ a

/-- **A step collects what goes, and answers with it unless it assigns a new object.** -/
theorem Step.loses (hs : m.Sound []) (hfree : op.AddressFree) (h : Step m op answer m') :
    ∃ as, m.heap.Loses m'.heap (op.dropped m) as ∧
      answer.collectedEntries.map (·.address) = if op.assignsNew then [] else as := by
  have hs' := h.sound hs hfree
  cases h with
  | declareScalar hf hn hv => exact ⟨[], .of_live (fun a ha => ha) _, rfl⟩
  | declareNull hf hn ht => exact ⟨[], .of_live (fun a ha => ha) _, rfl⟩
  | declareObject hf hn hr hg =>
      exact ⟨[], .of_live (fun a ha => (Heap.contains_appended _ _ a).2 (.inl ha)) _, rfl⟩
  | declareArray hf hn hr hg hv =>
      refine ⟨[], .of_live (fun a ha => (Heap.contains_appended _ _ a).2 (.inl ?_)) _, rfl⟩
      exact (Heap.isSome_get?_retained _ _ a).trans ha
  | declareCopy hf hn hx ha =>
      refine ⟨[], .of_live (fun a ha => ?_) _, rfl⟩
      exact (Heap.isSome_get?_retained _ _ a).trans ha
  | assignValue hf ht hx ha hp => exact ⟨[], .of_live (fun a ha => ha) _, rfl⟩
  | assignReference hf ht hx ha hp hr =>
      refine ⟨_, ?_, rfl⟩
      rw [Operation.dropped, dropped_of_slot? hf ht]
      exact hr.loses
  | assignLiteral hf ht hp ha hv => exact ⟨[], .of_live (fun a ha => ha) _, rfl⟩
  | assignNull hf ht hp hr =>
      refine ⟨_, ?_, rfl⟩
      rw [Operation.dropped, dropped_of_slot? hf ht]
      exact hr.loses
  | assignNew hf ht hp hroom hg hr =>
      rw [Operation.dropped, dropped_of_slot? hf ht]
      cases hr with
      | same he =>
          exact ⟨[], .of_live (fun a ha => (Heap.contains_appended _ _ a).2 (.inl ha)) _, rfl⟩
      | changed hne hr =>
          refine ⟨_, .of_releaseAll (List.prefix_append _ _) (fun a ha => ?_) hr fun a => rfl, rfl⟩
          -- The new entry stays, as the variable shows it.
          rcases (Heap.contains_appended _ _ a).1 ha with ha | rfl
          · exact .inl ha
          · exact .inr (hs'.isSome_get? (List.mem_append_left _ (mem_references_written hf ht rfl)))
  | enter hd => exact ⟨[], .of_live (fun a ha => ha) _, rfl⟩
  | leave hp hr =>
      refine ⟨_, ?_, rfl⟩
      rw [Operation.dropped, Stack.current_eq (Stack.frames_of_pop? hp)]
      exact .of_releaseAll List.prefix_rfl (fun a ha => .inl ha) hr fun a => rfl

end Steps

end StackHeap.Store
