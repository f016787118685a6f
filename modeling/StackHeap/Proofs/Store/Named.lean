import StackHeap.Proofs.Snapshot.Legible
import StackHeap.Proofs.Store.Typed

/-! # The names in a memory

A memory takes its names from the operations that were carried out on it: those of variables and
fields, the categories in types, and the names of frames but for the root.  If all of them are
identifiers, so are the names in the memory (`Memory.Named`, `Step.named`).  Its addresses were
supplied, so they look like tokens.

In a sound and well-typed memory references lead to live entries, and with its names it has a legible
snapshot (`Memory.Named.legible`). -/

namespace StackHeap.Store

open Command Number Text

/-! ### Named memories -/

/-- The fields of an object have identifiers for names. -/
def Contents.Named : Contents → Prop
  | .object fields => ∀ f ∈ fields, IsIdentifier f.name
  | .array _ => True

/-- The names that an operation brings along are identifiers. -/
def Operation.Named : Operation → Prop
  | declareScalar _ name _ _ => IsIdentifier name
  | declareNull _ name type => IsIdentifier name ∧ type.Legible
  | declareObject _ name category fields =>
    IsIdentifier name ∧ (DeclaredType.object category).Legible ∧ (Contents.object fields).Named
  | declareArray _ name type _ => IsIdentifier name ∧ type.Legible
  | declareCopy _ name type _ => IsIdentifier name ∧ type.Legible
  | assignNew _ _ _ fields => (Contents.object fields).Named
  | enter name => IsIdentifier name
  | _ => True

/-- The names in a memory can be read, and so can its addresses. -/
structure Memory.Named (m : Memory) : Prop where
  frames : ∀ f ∈ m.stack.frames, OneLine f.name
  slots : ∀ x ∈ m.stack.slots, x.address.Plain ∧ IsIdentifier x.name ∧ x.type.Legible
  entries : ∀ e ∈ m.heap.entries, e.address.Plain ∧ e.type.Legible ∧ e.contents.Named

theorem plain_next (s : Address.Supply) : s.next.Plain := Address.plain_ofSeed _

namespace Memory.Named

variable {m : Memory} {id : Nat} {name : String} {type : DeclaredType} {f : Frame} {x : Slot}
  {v : Value} {c : Contents}

theorem new {config : Config} (h : OneLine config.rootFrame) : (Memory.new config).Named where
  frames f hf := by
    obtain rfl : f = ⟨0, config.rootFrame, []⟩ := List.mem_singleton.1 hf
    exact h
  slots _ hx := absurd hx List.not_mem_nil
  entries _ he := absurd he List.not_mem_nil

theorem kept {h : Heap} (hm : m.Named) (hk : m.heap.Kept h) : Memory.Named { m with heap := h } where
  frames := hm.frames
  slots := hm.slots
  entries e he := by
    obtain ⟨n, hn⟩ := hk.exists_mem he
    have hold := hm.entries _ hn
    exact hold

theorem allocated (hm : m.Named) (ht : type.Legible) (hc : c.Named) : (m.allocated type c).Named where
  frames := hm.frames
  slots := hm.slots
  entries e he := by
    rcases List.mem_append.1 he with he | he
    · exact hm.entries e he
    · rw [List.mem_singleton.1 he]
      exact ⟨plain_next _, ht, hc⟩

/-- Changes to the slots of a frame keep the names of frames. -/
theorem frames_update {g : Frame → Frame} (hm : m.Named) (hg : ∀ f, (g f).name = f.name) :
    ∀ f ∈ (m.stack.update id g).frames, OneLine f.name := by
  intro f hf
  rw [Stack.frames_update] at hf
  obtain ⟨f', hf', rfl⟩ := List.mem_map.1 hf
  split
  · rw [hg]
    exact hm.frames f' hf'
  · exact hm.frames f' hf'

theorem declared (hm : m.Named) (hs : m.stack.WellFormed) (hf : m.stack.frame? id = some f)
    (hn : IsIdentifier name) (ht : type.Legible) : (m.declared id name type v).Named where
  frames := hm.frames_update (g := (·.push _)) fun _ => rfl
  slots y hy := by
    rcases hs.mem_slots_push hf hy with hy | rfl
    · exact hm.slots y hy
    · exact ⟨plain_next _, hn, ht⟩
  entries := hm.entries

theorem written (hm : m.Named) (hs : m.stack.WellFormed) (hf : m.stack.frame? id = some f)
    (hx : f.slot? name = some x) : (m.written id name v).Named where
  frames := hm.frames_update (g := (·.write name v)) fun _ => rfl
  slots y hy := by
    rcases hs.mem_slots_write hf hx hy with hy | rfl
    · exact hm.slots y hy
    · exact hm.slots x (Stack.mem_slots_of_slot? hf hx)
  entries := hm.entries

end Memory.Named

/-! ### Steps -/

section Steps

variable {m m' : Memory} {id : Nat} {name : String} {f : Frame} {x : Slot} {v w : Value}

theorem Rebound.named {taken : List Address} {collected : List Entry} (hm : m.Named)
    (hs : m.stack.WellFormed) (hf : m.stack.frame? id = some f) (hx : f.slot? name = some x)
    (hr : Rebound m id name w v taken collected m') : m'.Named := by
  cases hr with
  | same _ => exact hm
  | @changed _ h _ hr =>
      exact (hm.kept ((Heap.Kept.of_releaseAll hr).trans (.retained h taken))).written hs hf hx

/-- **A step brings in the names of its operation only.** -/
theorem Step.named {op : Operation} {answer : Answer} (hs : m.stack.WellFormed) (hm : m.Named)
    (ho : op.Named) (h : Step m op answer m') : m'.Named := by
  cases h with
  | declareScalar hf _ _ => exact hm.declared hs hf ho trivial
  | declareNull hf _ _ => exact hm.declared hs hf ho.1 ho.2
  | declareObject hf _ _ _ => exact (hm.allocated ho.2.1 ho.2.2).declared hs hf ho.1 ho.2.1
  | @declareArray _ _ type _ _ _ hf _ _ _ _ =>
      have ht : (DeclaredType.array type).Legible := ho.2
      exact ((hm.kept (.retained _ _)).allocated (c := .array _) ht trivial).declared hs hf ho.1 ht
  | declareCopy hf _ _ _ => exact (hm.kept (.retained _ _)).declared hs hf ho.1 ho.2
  | assignValue hf hx _ _ _ => exact hm.written hs hf hx
  | assignReference hf hx _ _ _ hr => exact hr.named hm hs hf hx
  | assignLiteral hf hx _ _ _ => exact hm.written hs hf hx
  | assignNull hf hx _ hr => exact hr.named hm hs hf hx
  | assignNew hf hx hp _ _ hr =>
      -- The category is that of the variable.
      have ht := (hm.slots _ (Stack.mem_slots_of_slot? hf hx)).2.2
      rw [hp] at ht
      exact hr.named (hm.allocated (c := .object _) ht ho) hs hf hx
  | enter _ =>
      refine ⟨fun f hf => ?_, fun x hx => hm.slots x (by rwa [Stack.slots_push] at hx), hm.entries⟩
      rw [Stack.frames_push, List.mem_append, List.mem_singleton] at hf
      rcases hf with hf | rfl
      · exact hm.frames f hf
      · exact oneLine_of_clear (clear_of_isIdentifier ho)
  | leave hp hr =>
      have hk := hm.kept (.of_releaseAll hr)
      refine ⟨fun f hf => hk.frames f (Stack.mem_frames_of_pop? hp hf), fun x hx => ?_, hk.entries⟩
      exact hk.slots x (Stack.slots_of_pop? hp ▸ List.mem_append_left _ hx)

end Steps

/-! ### Snapshots -/

namespace Memory

variable {m : Memory} {type : DeclaredType} {v : Value}

/-- A live address was supplied. -/
theorem Named.plain_of_isSome_get? (hm : m.Named) {a : Address} (ha : (m.heap.get? a).isSome = true) :
    a.Plain := by
  obtain ⟨e, he⟩ := Option.isSome_iff_exists.1 ha
  rw [← Heap.address_of_get? he]
  exact (hm.entries e (Heap.mem_of_get? he)).1

/-- What is admitted and live is shown as a value of its type. -/
theorem Named.shows (hm : m.Named) (ha : m.heap.Admits type v)
    (hlive : ∀ a ∈ v.referent?.toList, (m.heap.get? a).isSome = true) : Shows type v := by
  cases type with
  | primitive p => exact .primitive ha
  | object category =>
      cases v with
      | null => exact .null rfl
      | objectRef a => exact .object (hm.plain_of_isSome_get? (hlive a (List.mem_singleton.2 rfl)))
      | _ => exact ha.elim
  | array element =>
      cases v with
      | null => exact .null rfl
      | arrayRef a => exact .array (hm.plain_of_isSome_get? (hlive a (List.mem_singleton.2 rfl)))
      | _ => exact ha.elim

/-- **A sound, well-typed memory with readable names has a legible snapshot.** -/
theorem Named.legible (hm : m.Named) (hs : m.Sound []) (ht : m.Typed) :
    (Snapshot.ofMemory m).Legible where
  frames f hf := by
    refine ⟨hm.frames f hf, fun x hx => ?_⟩
    have hmem : x ∈ m.stack.slots := List.mem_flatMap.2 ⟨f, hf, hx⟩
    obtain ⟨haddress, hname, htype⟩ := hm.slots x hmem
    refine ⟨haddress, hname, htype, hm.shows (ht.slots x hmem) fun a ha => ?_⟩
    exact hs.isSome_get? (List.mem_append_left _ (List.mem_filterMap.2 ⟨x, hmem, Option.mem_toList.1 ha⟩))
  heap e he := by
    obtain ⟨entry, hmem, rfl⟩ := List.mem_map.1 he
    obtain ⟨haddress, htype, hnamed⟩ := hm.entries entry hmem
    refine ⟨haddress, htype, ?_⟩
    have hlive := fun a => hs.isSome_get?_of_mem_entries (a := a) hmem
    show Contents.Legible entry.type entry.contents
    have htyped := ht.entries entry hmem
    generalize entry.contents = c at htyped hnamed hlive
    generalize entry.type = type at htyped
    cases htyped with
    | object hf => exact .object fun f hfield => ⟨hnamed f hfield, hf.holds f hfield⟩
    | array _ _ hv =>
        refine .array fun v hvs => hm.shows (hv v hvs) fun a ha => hlive a ?_
        exact List.mem_filterMap.2 ⟨v, hvs, Option.mem_toList.1 ha⟩

end Memory

end StackHeap.Store
