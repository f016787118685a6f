import StackHeap.Proofs.Store.Structure

/-! # Addresses of a run

The moves of a run give addresses to slots and entries, and the supply counts them, so what a run
has handed out can be read off the counts before and after it (`Supply.handedOut`,
`Moves.handedOut`).

* **No address comes back.**  A memory shows some of the addresses handed out so far, each at one
  place (`Memory.Supplied`).  Up to `2 ^ 53` the next one differs from all of them, whether its
  holder is still there or was popped or collected (`Supplied.not_mem_given`).
* **No allocation collides.**  The next address is no live entry's, so no operation loses one, and
  a run is moves throughout (`Supplied.moves_after`, `Supplied.moves_runAll`).

The operations may be called with anything, carried out or not. -/

namespace StackHeap

open Number

namespace Address.Supply

variable {s t u : Supply} {a : Address}

/-- The addresses handed out between two states of a supply, in order. -/
def handedOut (s t : Supply) : List Address :=
  (List.range' s.used (t.used - s.used)).map fun n => next ⟨n⟩

@[simp] theorem length_handedOut (s t : Supply) : (s.handedOut t).length = t.used - s.used := by
  simp [handedOut]

@[simp] theorem handedOut_self (s : Supply) : s.handedOut s = [] := by simp [handedOut]

@[simp] theorem handedOut_advance (s : Supply) : s.handedOut s.advance = [s.next] := by
  simp [handedOut, advance]

theorem handedOut_append (hs : s.used ≤ t.used) (ht : t.used ≤ u.used) :
    s.handedOut t ++ t.handedOut u = s.handedOut u := by
  have hcount : u.used - s.used = (t.used - s.used) + (u.used - t.used) := by omega
  have hstart : t.used = s.used + (t.used - s.used) := by omega
  rw [handedOut, handedOut, handedOut, hcount, ← List.range'_append_1, ← hstart, List.map_append]

theorem getElem_handedOut {k : Nat} (hk : k < (s.handedOut t).length) :
    (s.handedOut t)[k] = nth (s.used + k + 1) := by
  simp [handedOut, next]

theorem mem_handedOut_iff : a ∈ s.handedOut t ↔ ∃ k, s.used < k ∧ k ≤ t.used ∧ a = nth k := by
  simp only [handedOut, List.mem_map, List.mem_range'_1]
  constructor
  · rintro ⟨n, hn, rfl⟩
    exact ⟨n + 1, by omega, by omega, rfl⟩
  · rintro ⟨k, hk, hkt, rfl⟩
    refine ⟨k - 1, by omega, ?_⟩
    rw [next, Nat.sub_add_cancel (by omega)]

/-- **Up to `2 ^ 53` no address is handed out twice.** -/
theorem nodup_handedOut (ht : t.used ≤ pow2 53) : (s.handedOut t).Nodup := by
  refine List.Nodup.map_on ?_ List.nodup_range'
  intro j hj k hk he
  rw [List.mem_range'_1] at hj hk
  have hjk : j + 1 = k + 1 := nth_injOn (by omega) (by omega) he
  omega

/-- **The `k`-th address handed out since the start is the marker and the numeral of `k`.** -/
theorem getElem_handedOut_eq {k : Nat} (ht : t.used ≤ pow2 53)
    (hk : k < (handedOut {} t).length) :
    (handedOut {} t)[k] = ⟨String.ofList ('0' :: 'x' :: numeral36 (k + 1))⟩ := by
  have hlt : k < t.used := by simpa using hk
  rw [getElem_handedOut, Nat.zero_add]
  exact nth_eq (Nat.le_trans hlt ht)

/-- The token of zero is not handed out. -/
theorem zero_not_mem_handedOut (ht : t.used ≤ pow2 53) : ⟨"0x0"⟩ ∉ s.handedOut t := by
  intro hmem
  obtain ⟨k, hk, hkt, he⟩ := mem_handedOut_iff.1 hmem
  have hzero : nth 0 = ⟨"0x0"⟩ := by
    rw [nth_eq (Nat.zero_le _), numeral36_of_lt (by omega)]
    rfl
  have : 0 = k := nth_injOn (Nat.zero_le _) (by omega) (hzero.trans he)
  omega

end Address.Supply

namespace Store

namespace Memory

variable {m m₁ m' : Memory} {as : List Address} {a : Address} {config : Config}

/-- The addresses that a memory shows: those of its slots and of its live entries. -/
def given (m : Memory) : List Address :=
  m.stack.slots.map Slot.address ++ m.heap.entries.map Entry.address

/-- The addresses handed out before a memory of a run. -/
def handedOut (m : Memory) : List Address := Address.Supply.handedOut {} m.addresses

/-! ### What moves give -/

theorem Move.handedOut (hm : m.Move as m') :
    m.addresses.used ≤ m'.addresses.used ∧ as = m.addresses.handedOut m'.addresses := by
  have hgive : m.addresses.used ≤ m.addresses.advance.used ∧
      [m.addresses.next] = m.addresses.handedOut m.addresses.advance :=
    ⟨Nat.le_succ _, m.addresses.handedOut_advance.symm⟩
  have hkeep : m.addresses.used ≤ m.addresses.used ∧
      [] = m.addresses.handedOut m.addresses :=
    ⟨Nat.le_refl _, m.addresses.handedOut_self.symm⟩
  cases hm with
  | count hm => exact hkeep
  | allocate hr hg => exact hgive
  | declare hf hn => exact hgive
  | write hf hx => exact hkeep
  | enter hd => exact hkeep
  | leave hp => exact hkeep

/-- Moves give every address that the supply counts, in order. -/
theorem Moves.handedOut (hm : m.Moves as m') :
    m.addresses.used ≤ m'.addresses.used ∧ as = m.addresses.handedOut m'.addresses := by
  induction hm with
  | refl m => exact ⟨Nat.le_refl _, m.addresses.handedOut_self.symm⟩
  | step hstep _ ih =>
      obtain ⟨hle, rfl⟩ := hstep.handedOut
      obtain ⟨hle', rfl⟩ := ih
      exact ⟨Nat.le_trans hle hle', Address.Supply.handedOut_append hle hle'⟩

/-- What a memory shows after a move it showed before, or the move gives it. -/
theorem Move.given_subperm (hs : m.stack.WellFormed) (hm : m.Move as m') :
    m'.given.Subperm (m.given ++ as) := by
  cases hm with
  | count hm =>
      rw [List.append_nil]
      apply List.Sublist.subperm
      exact (hm.kept.map_sublist fun _ => rfl).append_left _
  | allocate hr hg =>
      simp only [given, allocated, Heap.appended, List.map_append, List.append_assoc]
      exact .refl _
  | @declare id name f type value hf hn =>
      obtain ⟨l, r, hl, hu⟩ := hs.exists_slots_push hf ⟨m.addresses.next, name, type, value⟩
      apply List.Perm.subperm
      simp only [given, declared, hl, hu, List.map_append, List.map_cons]
      rw [List.append_assoc, List.cons_append]
      apply List.perm_middle.trans
      rw [← List.append_assoc]
      exact (List.perm_append_singleton _ _).symm
  | @write id name f x value hf hx =>
      obtain ⟨l, r, hl, hu⟩ := hs.exists_slots_write hf hx value
      simp only [given, written, hl, hu, List.map_append, List.map_cons, List.append_nil]
      exact .refl _
  | enter hd =>
      simp only [given, Stack.slots_push, List.append_nil]
      exact .refl _
  | leave hp =>
      simp only [given, Stack.slots_of_pop? hp, List.map_append, List.append_nil]
      apply List.Sublist.subperm
      exact (List.sublist_append_left _ _).append_right _

theorem Moves.given_subperm (hs : m.Structured config) (hm : m.Moves as m') :
    m'.given.Subperm (m.given ++ as) := by
  induction hm with
  | refl m => rw [List.append_nil]
  | step hstep _ ih =>
      have hrest := ih (hs.move hstep)
      have hfirst := hstep.given_subperm hs.stack
      rw [← List.append_assoc]
      exact hrest.trans ((List.subperm_append_right _).2 hfirst)

/-! ### What a memory shows -/

/-- A memory shows addresses that were handed out, each at one place. -/
structure Supplied (m : Memory) : Prop where
  distinct : m.given.Nodup
  handed : ∀ a ∈ m.given, a ∈ m.handedOut

namespace Supplied

theorem new (config : Config) : (Memory.new config).Supplied where
  distinct := List.nodup_nil
  handed _ ha := absurd ha List.not_mem_nil

/-- What was handed out before is not given again. -/
theorem disjoint (hm : m.Moves as m') (hu : m'.addresses.used ≤ pow2 53) :
    m.handedOut.Disjoint as := by
  obtain ⟨hle, rfl⟩ := hm.handedOut
  have hd := Address.Supply.nodup_handedOut (s := {}) hu
  rw [← Address.Supply.handedOut_append (Nat.zero_le _) hle] at hd
  exact List.disjoint_of_nodup_append hd

theorem moves (hs : m.Supplied) (hst : m.Structured config) (hm : m.Moves as m')
    (hu : m'.addresses.used ≤ pow2 53) : m'.Supplied := by
  have hsub := hm.given_subperm hst
  have hdisjoint := disjoint hm hu
  obtain ⟨hle, rfl⟩ := hm.handedOut
  constructor
  · obtain ⟨l, hperm, hl⟩ := hsub
    apply hperm.nodup_iff.1
    apply List.Nodup.sublist hl
    refine List.nodup_append'.2 ⟨hs.distinct, Address.Supply.nodup_handedOut hu, ?_⟩
    exact fun a ha => hdisjoint (hs.handed a ha)
  · intro a ha
    rw [Memory.handedOut, ← Address.Supply.handedOut_append (Nat.zero_le _) hle]
    rcases List.mem_append.1 (hsub.subset ha) with ha | ha
    · exact List.mem_append_left _ (hs.handed a ha)
    · exact List.mem_append_right _ ha

/-- **No address comes back**: one that was handed out and is not shown is not shown later. -/
theorem not_mem_given (hst : m.Structured config) (hm : m.Moves as m')
    (hu : m'.addresses.used ≤ pow2 53) (ha : a ∈ m.handedOut) (hn : a ∉ m.given) :
    a ∉ m'.given := by
  intro hmem
  rcases List.mem_append.1 ((hm.given_subperm hst).subset hmem) with h | h
  · exact hn h
  · exact disjoint hm hu ha h

/-- **No allocation collides**: the next address is no live entry's. -/
theorem contains_next (hs : m.Supplied) (hu : m.addresses.used + 1 ≤ pow2 53) :
    m.heap.contains m.addresses.next = false := by
  rw [Heap.contains, Option.isSome_eq_false_iff, Option.isNone_iff_eq_none]
  cases hg : m.heap.get? m.addresses.next with
  | none => rfl
  | some e =>
      have hmem : m.addresses.next ∈ m.given := by
        apply List.mem_append_right
        rw [← Heap.address_of_get? hg]
        exact List.mem_map_of_mem (Heap.mem_of_get? hg)
      obtain ⟨k, hk, hku, he⟩ := Address.Supply.mem_handedOut_iff.1 (hs.handed _ hmem)
      have := Address.nth_injOn hu (by omega) he
      omega

/-- Every operation makes moves, and none tells of an address that exists. -/
theorem moves_after (hs : m.Supplied) (hst : m.Structured config) (op : Operation)
    (hu : (op.after m).addresses.used ≤ pow2 53) :
    m.Moves (m.addresses.handedOut (op.after m).addresses) (op.after m) ∧
      ∀ a, op.error? m ≠ some (.broken (.allocatedTwice a)) := by
  rcases op.exists_moves m with ⟨as, hm, he⟩ | ⟨as, m₁, hm, hc, hskip⟩
  · obtain ⟨-, rfl⟩ := hm.handedOut
    exact ⟨hm, he⟩
  · rw [hskip] at hu
    have hs₁ := hs.moves hst hm (Nat.le_of_succ_le hu)
    rw [hs₁.contains_next hu] at hc
    cases hc

theorem moves_runAll (hs : m.Supplied) (hst : m.Structured config) (ops : List Operation)
    (hu : (m.runAll ops).addresses.used ≤ pow2 53) :
    m.Moves (m.addresses.handedOut (m.runAll ops).addresses) (m.runAll ops) := by
  induction ops generalizing m with
  | nil =>
      have h := Moves.refl m
      rwa [← m.addresses.handedOut_self] at h
  | cons op ops ih =>
      have hrest := Memory.used_le_runAll (op.after m) ops
      have hfirst := (hs.moves_after hst op (Nat.le_trans hrest hu)).1
      have hs₁ := hs.moves hst hfirst (Nat.le_trans hrest hu)
      have hall := hfirst.trans (ih hs₁ (hst.moves hfirst) hu)
      rwa [Address.Supply.handedOut_append (op.used_le_after m) hrest] at hall

theorem runAll (hs : m.Supplied) (hst : m.Structured config) (ops : List Operation)
    (hu : (m.runAll ops).addresses.used ≤ pow2 53) : (m.runAll ops).Supplied :=
  hs.moves hst (hs.moves_runAll hst ops hu) hu

end Supplied

end Memory

/-! ### Runs -/

/-- **Addresses are never reused.**  A run hands out the numerals of 1, 2, 3 and so on, one for
every slot and entry that it makes, in order; so they are distinct, and none is the token of zero.
No operation finds its next address taken.  In every state slots and entries have different
addresses, handed out before, and what is not shown any more does not come back. -/
theorem addresses_never_reused (config : Config) (ops : List Operation)
    (hu : ((Memory.new config).runAll ops).addresses.used ≤ pow2 53) :
    let start := Memory.new config
    let final := start.runAll ops
    (final.handedOut.length = final.addresses.used ∧ start.Moves final.handedOut final) ∧
    (∀ k (hk : k < final.handedOut.length),
      final.handedOut[k] = ⟨String.ofList ('0' :: 'x' :: numeral36 (k + 1))⟩ ∧
      numeral36 (k + 1) = (Nat.digits 36 (k + 1)).reverse.map digit36 ∧
      (numeral36 (k + 1)).head? ≠ some '0') ∧
    (final.handedOut.Nodup ∧ ⟨"0x0"⟩ ∉ final.handedOut) ∧
    (∀ before op after, ops = before ++ op :: after →
      let m := start.runAll before
      m.Moves (m.addresses.handedOut (op.after m).addresses) (op.after m) ∧
      ∀ a, op.error? m ≠ some (.broken (.allocatedTwice a))) ∧
    ∀ before after, ops = before ++ after →
      let m := start.runAll before
      m.given.Nodup ∧ (∀ a ∈ m.given, a ∈ m.handedOut) ∧
      ∀ a ∈ m.handedOut, a ∉ m.given → a ∉ final.given := by
  intro start final
  have hstart := Memory.Structured.new config
  have hnone := Memory.Supplied.new config
  have hall : start.Moves final.handedOut final := hnone.moves_runAll hstart ops hu
  -- Up to any point of the run fewer addresses were handed out.
  have hbound : ∀ before after, ops = before ++ after →
      (start.runAll before).addresses.used ≤ pow2 53 := by
    rintro before after rfl
    apply Nat.le_trans _ hu
    rw [Memory.runAll_append]
    exact Memory.used_le_runAll _ after
  have hpart : ∀ before after, ops = before ++ after → (start.runAll before).Supplied := by
    intro before after hops
    exact hnone.runAll hstart before (hbound before after hops)
  refine ⟨⟨?_, hall⟩, ?_, ⟨?_, ?_⟩, ?_, ?_⟩
  · exact Address.Supply.length_handedOut _ _
  · intro k hk
    refine ⟨Address.Supply.getElem_handedOut_eq hu hk, ?_, ?_⟩
    · exact numeral36_eq_digits (Nat.succ_pos k)
    · exact head?_numeral36_ne (Nat.succ_pos k)
  · exact Address.Supply.nodup_handedOut hu
  · exact Address.Supply.zero_not_mem_handedOut hu
  · rintro before op after hops
    have hb : (op.after (start.runAll before)).addresses.used ≤ pow2 53 := by
      have h := hbound (before ++ [op]) after (by rw [hops, List.append_assoc]; rfl)
      rwa [Memory.runAll_append] at h
    exact (hpart before (op :: after) hops).moves_after (hstart.runAll before) op hb
  · intro before after hops
    have hs := hpart before after hops
    refine ⟨hs.distinct, hs.handed, ?_⟩
    intro a ha hn
    have hst := hstart.runAll before
    have hfinal : final = (start.runAll before).runAll after := by
      rw [← Memory.runAll_append, ← hops]
    rw [hfinal]
    have hu' : ((start.runAll before).runAll after).addresses.used ≤ pow2 53 := hfinal ▸ hu
    exact Memory.Supplied.not_mem_given hst (hs.moves_runAll hst after hu') hu' ha hn

/-- A run with a collection, a scope that is left, and an operation that is rejected. -/
theorem addresses_never_reused_churn :
    let ops : List Operation :=
      [.declareObject 0 "a" "Cat" [⟨"age", .int, .int 3⟩], .declareScalar 7 "x" .int (.int 1),
        .assignNull 0 "a", .enter "f", .declareNull 1 "b" (.object "Cat"), .leave,
        .assignNew 0 "a" "Cat" [⟨"age", .int, .int 4⟩]]
    let final := (Memory.new {}).runAll ops
    final.addresses.used ≤ pow2 53 ∧
      final.handedOut = [⟨"0x1"⟩, ⟨"0x2"⟩, ⟨"0x3"⟩, ⟨"0x4"⟩] ∧ final.handedOut.Nodup ∧
      final.given = [⟨"0x2"⟩, ⟨"0x4"⟩] ∧ ⟨"0x1"⟩ ∉ final.given := by
  intro ops final
  have hu : final.addresses.used ≤ pow2 53 := by decide +kernel
  obtain ⟨-, -, ⟨hdistinct, -⟩, -, hgone⟩ := addresses_never_reused {} ops hu
  obtain ⟨-, -, hcollected⟩ := hgone (ops.take 3) (ops.drop 3) (List.take_append_drop 3 ops).symm
  refine ⟨hu, by decide +kernel, hdistinct, by decide +kernel, ?_⟩
  exact hcollected _ (by decide +kernel) (by decide +kernel)

end Store

end StackHeap
