import StackHeap.Proofs.Store.Exact
import StackHeap.Proofs.Store.Initialising
import StackHeap.Proofs.Store.Locality

/-! # Assignments that commute

Two assignments in a frame commute if they write different variables and neither copies the variable
that the other writes (`IsAssignment.after_comm`).  In between the heaps differ: an entry may be
collected by the first assignment in one order and by the second in the other, and cascades through
shared arrays meet each other half way.

* **Values.**  An assignment is carried out exactly if it supplies a value that its target accepts
  (`Supplies`), which depends on the slots of the target and of the source only.
* **Slots.**  What it leaves is the stack with the value written, and a heap of kept entries
  (`Replaced`).
* **Heaps.**  A sound memory is settled by its slots and by a heap from which its entries were kept:
  live is what the slots reach, and the counts are those of the holders (`Sound.heap_eq`).  So the
  heaps of both orders are the same in the end. -/

namespace StackHeap.Store

/-! ### Heaps with the same slots -/

/-- Parts of a list without repetitions are the same if their members are. -/
theorem eq_of_sublist {α : Type} {whole l₁ l₂ : List α} (hn : whole.Nodup)
    (h₁ : l₁.Sublist whole) (h₂ : l₂.Sublist whole) (h : ∀ a, a ∈ l₁ ↔ a ∈ l₂) : l₁ = l₂ := by
  induction h₁ generalizing l₂ with
  | slnil => exact (List.sublist_nil.1 h₂).symm
  | @cons l₁ whole a h₁ ih =>
      obtain ⟨ha, hn⟩ := List.nodup_cons.1 hn
      rcases List.sublist_cons_iff.1 h₂ with hrest | ⟨l₂, rfl, -⟩
      · exact ih hn hrest h
      · exact absurd (h₁.subset ((h a).2 List.mem_cons_self)) ha
  | @cons_cons l₁ whole a h₁ ih =>
      obtain ⟨ha, hn⟩ := List.nodup_cons.1 hn
      rcases List.sublist_cons_iff.1 h₂ with hrest | ⟨l₂, rfl, hrest⟩
      · exact absurd (hrest.subset ((h a).1 List.mem_cons_self)) ha
      · -- Apart from the first, the members are others.
        have hother : ∀ b, b ∈ l₁ ∨ b ∈ l₂ → b ≠ a := by
          rintro b hb rfl
          exact ha (hb.elim (h₁.subset ·) (hrest.subset ·))
        refine congrArg (a :: ·) (ih hn hrest fun b => ⟨fun hb => ?_, fun hb => ?_⟩)
        · have hmem := (h b).1 (List.mem_cons_of_mem _ hb)
          exact (List.mem_cons.1 hmem).resolve_left (hother b (.inl hb))
        · have hmem := (h b).2 (List.mem_cons_of_mem _ hb)
          exact (List.mem_cons.1 hmem).resolve_left (hother b (.inr hb))

namespace Heap

variable {h h₁ h₂ : Heap} {e₁ e₂ : Entry}

theorem Distinct.nodup_uncounted (hd : h.Distinct) : (h.entries.map Entry.uncounted).Nodup := by
  refine List.Nodup.of_map Entry.address ?_
  rw [List.map_map]
  exact hd

/-- Kept entries of one address differ in their counts at most. -/
theorem Distinct.uncounted_eq (hd : h.Distinct) (hk₁ : h.Kept h₁) (hk₂ : h.Kept h₂)
    (he₁ : e₁ ∈ h₁.entries) (he₂ : e₂ ∈ h₂.entries) (ha : e₂.address = e₁.address) :
    e₂.uncounted = e₁.uncounted := by
  obtain ⟨x₁, hx₁, hu₁⟩ := hk₁.exists_uncounted he₁
  obtain ⟨x₂, hx₂, hu₂⟩ := hk₂.exists_uncounted he₂
  have hx : x₂ = x₁ := by
    refine hd.eq_of_address hx₁ hx₂ ?_
    rw [address_of_uncounted hu₁, address_of_uncounted hu₂, ha]
  rw [← hu₁, ← hu₂, hx]

/-- The addresses held inside do not depend on counts. -/
theorem references_eq_of_uncounted
    (h : h₁.entries.map Entry.uncounted = h₂.entries.map Entry.uncounted) :
    h₁.references = h₂.references := by
  have hall : ∀ es : List Entry, (es.flatMap fun e => e.contents.references) =
      (es.map Entry.uncounted).flatMap fun e => e.contents.references := by
    intro es
    rw [List.flatMap_map]
    rfl
  unfold references
  rw [hall, hall h₂.entries, h]

end Heap

namespace Memory.Sound

variable {m m₁ m₂ : Memory} {h : Heap} {a : Address}

/-- Of entries kept from one heap, the slots reach the same. -/
theorem exists_entry_of_reachable (hs₁ : m₁.Sound []) (hs₂ : m₂.Sound []) (hd : h.Distinct)
    (hk₁ : h.Kept m₁.heap) (hk₂ : h.Kept m₂.heap) (hstack : m₁.stack = m₂.stack)
    (hr : m₁.Reachable a) : ∃ e ∈ m₂.heap.entries, e.address = a := by
  induction hr with
  | @slot x a hx ha =>
      rw [hstack] at hx
      exact hs₂.exists_entry (.inl (List.mem_filterMap.2 ⟨x, hx, ha⟩))
  | @element e v a he _ hv ha ih =>
      obtain ⟨e', he', haddress⟩ := ih
      have hcontents : e'.uncounted.contents = e.uncounted.contents :=
        congrArg Entry.contents (hd.uncounted_eq hk₁ hk₂ he he' haddress)
      refine hs₂.exists_entry (.inr (List.mem_flatMap.2 ⟨e', he', ?_⟩))
      have hreferences : e'.contents.references = e.contents.references :=
        congrArg Contents.references hcontents
      rw [hreferences, hs₁.references_eq he]
      exact List.mem_filterMap.2 ⟨v, hv, ha⟩

theorem mem_uncounted (hs₁ : m₁.Sound []) (hs₂ : m₂.Sound []) (hd : h.Distinct)
    (hk₁ : h.Kept m₁.heap) (hk₂ : h.Kept m₂.heap) (hstack : m₁.stack = m₂.stack) {e : Entry}
    (he : e ∈ m₁.heap.entries.map Entry.uncounted) :
    e ∈ m₂.heap.entries.map Entry.uncounted := by
  obtain ⟨e₁, he₁, rfl⟩ := List.mem_map.1 he
  obtain ⟨e₂, he₂, ha⟩ :=
    exists_entry_of_reachable hs₁ hs₂ hd hk₁ hk₂ hstack (hs₁.reachable he₁)
  rw [← hd.uncounted_eq hk₁ hk₂ he₁ he₂ ha]
  exact List.mem_map_of_mem he₂

/-- An entry with its count worked out. -/
def recounted (m : Memory) (e : Entry) : Entry :=
  { e with refs := m.stack.references.count e.address + m.heap.references.count e.address }

theorem entries_eq_map_recounted (hs : m.Sound []) :
    m.heap.entries = (m.heap.entries.map Entry.uncounted).map (recounted m) := by
  rw [List.map_map]
  refine (List.map_id _).symm.trans (List.map_congr_left fun e he => ?_)
  show e = { e with
    refs := m.stack.references.count e.address + m.heap.references.count e.address }
  rw [← hs.refs_eq he]

/-- **The slots settle what is left of a heap.** -/
theorem heap_eq (hs₁ : m₁.Sound []) (hs₂ : m₂.Sound []) (hd : h.Distinct) (hk₁ : h.Kept m₁.heap)
    (hk₂ : h.Kept m₂.heap) (hstack : m₁.stack = m₂.stack) : m₁.heap = m₂.heap := by
  have hn := hd.nodup_uncounted
  have hentries : m₁.heap.entries.map Entry.uncounted = m₂.heap.entries.map Entry.uncounted := by
    refine eq_of_sublist hn hk₁.entries hk₂.entries fun e => ⟨?_, ?_⟩
    · exact mem_uncounted hs₁ hs₂ hd hk₁ hk₂ hstack
    · exact mem_uncounted hs₂ hs₁ hd hk₂ hk₁ hstack.symm
  have hcounts : recounted m₁ = recounted m₂ := by
    funext e
    rw [recounted, recounted, hstack, Heap.references_eq_of_uncounted hentries]
  have hlive : m₁.heap.entries = m₂.heap.entries := by
    rw [hs₁.entries_eq_map_recounted, hs₂.entries_eq_map_recounted, hentries, hcounts]
  have hnext := hk₁.nextSequence.trans hk₂.nextSequence.symm
  have hlimit := hk₁.limit.trans hk₂.limit.symm
  calc m₁.heap = ⟨m₁.heap.entries, m₁.heap.nextSequence, m₁.heap.limit⟩ := rfl
    _ = ⟨m₂.heap.entries, m₂.heap.nextSequence, m₂.heap.limit⟩ := by rw [hlive, hnext, hlimit]

end Memory.Sound

/-! ### Values written -/

/-- The memory `m'` is `m` with a variable written and with what is left of its heap. -/
structure Replaced (m : Memory) (id : Nat) (target : String) (v : Value) (m' : Memory) : Prop where
  sound : m'.Sound []
  stack : m'.stack = m.stack.update id (·.write target v)
  kept : m.heap.Kept m'.heap
  addresses : m'.addresses = m.addresses
  maxFrames : m'.maxFrames = m.maxFrames

section Replaced

variable {m m₁ m₂ m₁₂ m₂₁ : Memory} {id : Nat} {t t₁ t₂ target : String} {v v₁ v₂ : Value}
  {f : Frame} {x : Slot}

/-- **In either order, different variables are written alike.** -/
theorem Replaced.comm (hs : m.Sound []) (hne : t₁ ≠ t₂) (h₁ : Replaced m id t₁ v₁ m₁)
    (h₁₂ : Replaced m₁ id t₂ v₂ m₁₂) (h₂ : Replaced m id t₂ v₂ m₂)
    (h₂₁ : Replaced m₂ id t₁ v₁ m₂₁) : m₁₂ = m₂₁ := by
  have hstack : m₁₂.stack = m₂₁.stack := by
    rw [h₁₂.stack, h₁.stack, h₂₁.stack, h₂.stack,
      Stack.update_update (g := (·.write t₁ v₁)) fun _ => rfl,
      Stack.update_update (g := (·.write t₂ v₂)) fun _ => rfl]
    simp only [Frame.write_comm hne]
  have hheap := h₁₂.sound.heap_eq h₂₁.sound hs.balanced.distinct (h₁.kept.trans h₁₂.kept)
    (h₂.kept.trans h₂₁.kept) hstack
  have haddresses := (h₁₂.addresses.trans h₁.addresses).trans
    (h₂₁.addresses.trans h₂.addresses).symm
  have hframes := (h₁₂.maxFrames.trans h₁.maxFrames).trans (h₂₁.maxFrames.trans h₂.maxFrames).symm
  calc m₁₂ = ⟨m₁₂.stack, m₁₂.heap, m₁₂.addresses, m₁₂.maxFrames⟩ := rfl
    _ = ⟨m₂₁.stack, m₂₁.heap, m₂₁.addresses, m₂₁.maxFrames⟩ := by
      rw [hstack, hheap, haddresses, hframes]

theorem Replaced.frame? (h : Replaced m id t v m₁) (hf : m.stack.frame? id = some f) :
    m₁.stack.frame? id = some (f.write t v) := by
  rw [h.stack]
  exact Stack.frame?_update (g := (·.write t v)) (fun _ => rfl) hf

theorem Replaced.of_rebound {taken : List Address} {collected : List Entry} (hs : m.Sound [])
    (hs₁ : m₁.Sound []) (hf : m.stack.frame? id = some f) (hx : f.slot? t = some x)
    (h : Rebound m id t x.value v taken collected m₁) : Replaced m id t v m₁ := by
  cases h with
  | same he =>
      have hself := Memory.written_self hs.stack hf hx
      rw [he] at hself
      exact ⟨hs, (congrArg Memory.stack hself).symm, .refl _, rfl, rfl⟩
  | changed hne hr =>
      exact ⟨hs₁, rfl, (Heap.Kept.of_releaseAll hr).trans (.retained _ _), rfl, rfl⟩

end Replaced

/-! ### Assignments -/

namespace Operation

/-- An operation that assigns to a variable of a frame, and the variable that it copies, if any. -/
inductive IsAssignment (id : Nat) (target : String) : Option String → Operation → Prop where
  | copy (source : String) : IsAssignment id target (some source) (.assign id target source)
  | literal (type : Primitive) (value : Value) :
      IsAssignment id target none (.assignLiteral id target type value)
  | null : IsAssignment id target none (.assignNull id target)

/-- The value that an assignment supplies to its target, which accepts it. -/
inductive Supplies (f : Frame) (target : String) : Operation → Value → Prop where
  | copy {id : Nat} {source : String} {t x : Slot} (ht : f.slot? target = some t)
      (hx : f.slot? source = some x) (ha : t.type.accepts x.type = true) :
      Supplies f target (.assign id target source) (x.valueAs t.type)
  | literal {id : Nat} {type p : Primitive} {value : Value} {t : Slot}
      (ht : f.slot? target = some t) (hp : t.type = .primitive p) (ha : p.accepts type = true)
      (hv : value.isReference = false) :
      Supplies f target (.assignLiteral id target type value) (value.widen p)
  | null {id : Nat} {t : Slot} (ht : f.slot? target = some t) (hp : t.type.isReference = true) :
      Supplies f target (.assignNull id target) .null

variable {m : Memory} {id : Nat} {target t₁ t₂ : String} {source s₁ s₂ : Option String}
  {op op₁ op₂ : Operation} {f : Frame} {v : Value}

/-- What is supplied is no address that is passed in. -/
theorem Supplies.addressFree (h : Supplies f target op v) : op.AddressFree := by
  cases h with
  | copy _ _ _ => exact fun w hw => absurd hw List.not_mem_nil
  | literal _ _ _ hvalue =>
      intro w hw
      rw [List.mem_singleton.1 hw]
      exact Value.referent?_eq_none hvalue
  | null _ _ => exact fun w hw => absurd hw List.not_mem_nil

namespace IsAssignment

theorem resolves (h : IsAssignment id target source op) (hs : m.Sound []) : op.Resolves m := by
  cases h with
  | copy source => exact resolves_assign hs
  | literal type value => exact resolves_assignLiteral m id target type value
  | null => exact resolves_assignNull hs

/-- An assignment that is carried out supplies a value. -/
theorem exists_supplies (h : IsAssignment id target source op) (hs : m.Sound [])
    (hf : m.stack.frame? id = some f) (he : op.error? m = none) : ∃ v, Supplies f target op v := by
  obtain ⟨answer, m', hstep⟩ := (h.resolves hs).step he
  cases h with
  | copy source =>
      cases hstep with
      | assignValue hf' ht hx ha =>
          obtain rfl := Option.some.inj (hf.symm.trans hf')
          exact ⟨_, .copy ht hx ha⟩
      | assignReference hf' ht hx ha =>
          obtain rfl := Option.some.inj (hf.symm.trans hf')
          exact ⟨_, .copy ht hx ha⟩
  | literal type value =>
      cases hstep with
      | assignLiteral hf' ht hp ha hv =>
          obtain rfl := Option.some.inj (hf.symm.trans hf')
          exact ⟨_, .literal ht hp ha hv⟩
  | null =>
      cases hstep with
      | assignNull hf' ht hp =>
          obtain rfl := Option.some.inj (hf.symm.trans hf')
          exact ⟨_, .null ht hp⟩

/-- An assignment that supplies a value is a step. -/
theorem exists_step (h : IsAssignment id target source op) (hs : m.Sound [])
    (hf : m.stack.frame? id = some f) (hv : Supplies f target op v) :
    ∃ answer m', op.run m = .ok answer m' ∧ Step m op answer m' := by
  cases h with
  | copy source =>
      cases hv with
      | copy ht hx ha => exact exists_step_assign hs hf ht hx ha
  | literal type value =>
      cases hv with
      | literal ht hp ha hvalue =>
          exact ⟨_, _, Memory.map_ok _ (Memory.assignLiteral_ok hf ht hp ha hvalue),
            .assignLiteral hf ht hp ha hvalue⟩
  | null =>
      cases hv with
      | null ht hp => exact exists_step_assignNull hs hf ht hp

/-- The step of an assignment writes the value supplied. -/
theorem replaced_of_step {answer : Answer} {m' : Memory} (h : IsAssignment id target source op)
    (hs : m.Sound []) (hf : m.stack.frame? id = some f) (hv : Supplies f target op v)
    (hstep : Step m op answer m') : Replaced m id target v m' := by
  have hs' := hstep.sound hs hv.addressFree
  cases h with
  | copy source =>
      cases hv with
      | @copy _ _ t x ht hx ha =>
          cases hstep with
          | assignValue hf' ht' hx' _ _ =>
              obtain rfl := Option.some.inj (hf.symm.trans hf')
              obtain rfl := Option.some.inj (ht.symm.trans ht')
              obtain rfl := Option.some.inj (hx.symm.trans hx')
              exact ⟨hs', rfl, .refl _, rfl, rfl⟩
          | assignReference hf' ht' hx' _ hp hr =>
              obtain rfl := Option.some.inj (hf.symm.trans hf')
              obtain rfl := Option.some.inj (ht.symm.trans ht')
              obtain rfl := Option.some.inj (hx.symm.trans hx')
              rw [Memory.valueAs_of_isReference x hp]
              exact .of_rebound hs hs' hf ht hr
  | literal type value =>
      cases hv with
      | literal ht hp _ _ =>
          cases hstep with
          | assignLiteral hf' ht' hp' _ _ =>
              obtain rfl := Option.some.inj (hf.symm.trans hf')
              obtain rfl := Option.some.inj (ht.symm.trans ht')
              obtain rfl := DeclaredType.primitive.inj (hp.symm.trans hp')
              exact ⟨hs', rfl, .refl _, rfl, rfl⟩
  | null =>
      cases hv with
      | null ht hp =>
          cases hstep with
          | assignNull hf' ht' _ hr =>
              obtain rfl := Option.some.inj (hf.symm.trans hf')
              obtain rfl := Option.some.inj (ht.symm.trans ht')
              exact .of_rebound hs hs' hf ht hr

/-- **An assignment that supplies a value is carried out, and writes it.** -/
theorem replaced (h : IsAssignment id target source op) (hs : m.Sound [])
    (hf : m.stack.frame? id = some f) (hv : Supplies f target op v) :
    op.error? m = none ∧ Replaced m id target v (op.after m) := by
  obtain ⟨answer, m', hrun, hstep⟩ := h.exists_step hs hf hv
  refine ⟨error?_of_run hrun, ?_⟩
  rw [after_of_run hrun]
  exact h.replaced_of_step hs hf hv hstep

/-- An assignment that fails leaves the memory alone. -/
theorem after_of_error (h : IsAssignment id target source op) (hs : m.Sound [])
    (he : op.error? m ≠ none) : op.after m = m := by
  rcases h.resolves hs with ⟨e, hrun, -⟩ | ⟨answer, m', hrun, -⟩
  · rw [after, hrun]
  · exact absurd (error?_of_run hrun) he

theorem sound_after (h : IsAssignment id target source op) (hs : m.Sound [])
    (hf : m.stack.frame? id = some f) : (op.after m).Sound [] := by
  by_cases he : op.error? m = none
  · obtain ⟨v, hv⟩ := h.exists_supplies hs hf he
    exact (h.replaced hs hf hv).2.sound
  · rwa [h.after_of_error hs he]

/-- Only the slots of the target and of the source matter to what is supplied. -/
theorem supplies_of_slots {f' : Frame} (h : IsAssignment id target source op)
    (ht : f'.slot? target = f.slot? target)
    (hs : ∀ name, source = some name → f'.slot? name = f.slot? name) (hv : Supplies f target op v) :
    Supplies f' target op v := by
  cases h with
  | copy source =>
      cases hv with
      | copy htarget hx ha => exact .copy (ht.trans htarget) ((hs source rfl).trans hx) ha
  | literal type value =>
      cases hv with
      | literal htarget hp ha hvalue => exact .literal (ht.trans htarget) hp ha hvalue
  | null =>
      cases hv with
      | null htarget hp => exact .null (ht.trans htarget) hp

/-- A write elsewhere does not matter to what is supplied. -/
theorem supplies_write_iff (h : IsAssignment id t₁ s₁ op) (hne : t₁ ≠ t₂) (hs : s₁ ≠ some t₂)
    (w : Value) : Supplies (f.write t₂ w) t₁ op v ↔ Supplies f t₁ op v := by
  have hslot : ∀ name, name ≠ t₂ → (f.write t₂ w).slot? name = f.slot? name :=
    fun name hn => Frame.slot?_write_of_ne hn f w
  have hsource : ∀ name, s₁ = some name → (f.write t₂ w).slot? name = f.slot? name :=
    fun name he => hslot name fun hn => hs (he.trans (congrArg some hn))
  exact ⟨h.supplies_of_slots (hslot t₁ hne).symm fun name he => (hsource name he).symm,
    h.supplies_of_slots (hslot t₁ hne) hsource⟩

/-- **Whether an assignment is carried out does not depend on one to another variable.** -/
theorem error?_after_eq_none_iff (h₁ : IsAssignment id t₁ s₁ op₁) (h₂ : IsAssignment id t₂ s₂ op₂)
    (hne : t₁ ≠ t₂) (hsource : s₁ ≠ some t₂) (hs : m.Sound [])
    (hf : m.stack.frame? id = some f) :
    op₁.error? (op₂.after m) = none ↔ op₁.error? m = none := by
  by_cases he : op₂.error? m = none
  · obtain ⟨w, hw⟩ := h₂.exists_supplies hs hf he
    have hr := (h₂.replaced hs hf hw).2
    have hwrite := fun v => h₁.supplies_write_iff (f := f) (v := v) hne hsource w
    constructor
    · intro h
      obtain ⟨v, hv⟩ := h₁.exists_supplies hr.sound (hr.frame? hf) h
      exact (h₁.replaced hs hf ((hwrite v).1 hv)).1
    · intro h
      obtain ⟨v, hv⟩ := h₁.exists_supplies hs hf h
      exact (h₁.replaced hr.sound (hr.frame? hf) ((hwrite v).2 hv)).1
  · rw [h₂.after_of_error hs he]

/-- **Assignments to different variables commute**, if neither copies the other's variable. -/
theorem after_comm (h₁ : IsAssignment id t₁ s₁ op₁) (h₂ : IsAssignment id t₂ s₂ op₂)
    (hne : t₁ ≠ t₂) (hs₁ : s₁ ≠ some t₂) (hs₂ : s₂ ≠ some t₁) (hs : m.Sound [])
    (hf : m.stack.frame? id = some f) :
    op₂.after (op₁.after m) = op₁.after (op₂.after m) := by
  have hsame₁ := h₁.error?_after_eq_none_iff h₂ hne hs₁ hs hf
  have hsame₂ := h₂.error?_after_eq_none_iff h₁ hne.symm hs₂ hs hf
  by_cases he₁ : op₁.error? m = none
  · by_cases he₂ : op₂.error? m = none
    · obtain ⟨v₁, hv₁⟩ := h₁.exists_supplies hs hf he₁
      obtain ⟨v₂, hv₂⟩ := h₂.exists_supplies hs hf he₂
      have hr₁ := (h₁.replaced hs hf hv₁).2
      have hr₂ := (h₂.replaced hs hf hv₂).2
      have hr₁₂ := h₂.replaced hr₁.sound (hr₁.frame? hf)
        ((h₂.supplies_write_iff hne.symm hs₂ v₁).2 hv₂)
      have hr₂₁ := h₁.replaced hr₂.sound (hr₂.frame? hf)
        ((h₁.supplies_write_iff hne hs₁ v₂).2 hv₁)
      exact hr₁.comm hs hne hr₁₂.2 hr₂ hr₂₁.2
    · rw [h₂.after_of_error hs he₂]
      exact h₂.after_of_error (h₁.sound_after hs hf) fun he => he₂ (hsame₂.1 he)
  · rw [h₁.after_of_error hs he₁]
    exact (h₁.after_of_error (h₂.sound_after hs hf) fun he => he₁ (hsame₁.1 he)).symm

end IsAssignment

end Operation

end StackHeap.Store
