import StackHeap.Proofs.Store.Balance

/-! # Release as a cascade

`releaseAll` keeps one list of addresses still to be released and puts the references of an entry
that it collects in front.  What it does is said here twice over the same single decrement
(`Turn`), with every decrement logged:

* `Loop` is that list at work;
* `Cascade` is the recursive reading, in which a collected entry releases the references it held
  front to back, each with all that follows from it before the next.

The two agree on every heap, log for log (`loop_iff_cascade`), and `releaseAll` returns the entries
of the log (`releaseAll_eq_ok_iff`).  On a balanced heap a release of an address that is held
outside ends without an error and takes that one holder away (`release_exact`). -/

namespace StackHeap.Store

/-- One decrement: the address whose count is lowered, and the entry that this collects. -/
structure Decrement where
  address : Address
  collected : Option Entry
deriving DecidableEq, Repr, Inhabited

/-- The entries that a log of decrements collects, in order. -/
def collectedBy (log : List Decrement) : List Entry := log.filterMap (·.collected)

@[simp] theorem collectedBy_nil : collectedBy [] = [] := rfl

@[simp] theorem collectedBy_cons_none (a : Address) (log : List Decrement) :
    collectedBy (⟨a, none⟩ :: log) = collectedBy log := rfl

@[simp] theorem collectedBy_cons_some (a : Address) (e : Entry) (log : List Decrement) :
    collectedBy (⟨a, some e⟩ :: log) = e :: collectedBy log := rfl

namespace Heap

variable {h h' h₁ h₂ : Heap} {a : Address} {as bs held : List Address}
  {log own rest : List Decrement} {collected : List Entry} {ext : Address → Nat}

/-- The count at an address goes down by one.  At zero the entry is collected, and what it held is
to be released. -/
inductive Turn : Heap → Decrement → List Address → Heap → Prop
  | lower {h : Heap} {a : Address} {e : Entry} (live : h.get? a = some e) (others : 1 < e.refs) :
      Turn h ⟨a, none⟩ [] (h.updateRefs a (· - 1))
  | collect {h : Heap} {a : Address} {e : Entry} (live : h.get? a = some e) (last : e.refs = 1) :
      Turn h ⟨a, some e.uncounted⟩ e.contents.references (h.remove a)

/-- Decrements with a list of pending addresses, the next of them in front. -/
inductive Loop : Heap → List Address → List Decrement → Heap → Prop
  | done (h : Heap) : Loop h [] [] h
  | turn {h h₁ h' : Heap} {a : Address} {c : Option Entry} {held pending : List Address}
      {log : List Decrement} (head : Turn h ⟨a, c⟩ held h₁) (tail : Loop h₁ (held ++ pending) log h') :
      Loop h (a :: pending) (⟨a, c⟩ :: log) h'

/-- Decrements of some addresses front to back, each with its own cascade before the next. -/
inductive Cascade : Heap → List Address → List Decrement → Heap → Prop
  | nil (h : Heap) : Cascade h [] [] h
  | cons {h h₁ h₂ h' : Heap} {a : Address} {c : Option Entry} {held as : List Address}
      {own rest : List Decrement} (head : Turn h ⟨a, c⟩ held h₁) (inner : Cascade h₁ held own h₂)
      (tail : Cascade h₂ as rest h') : Cascade h (a :: as) (⟨a, c⟩ :: (own ++ rest)) h'

/-! ### The two orders agree -/

/-- What one decrement does is determined by the heap and the address. -/
theorem Turn.unique {c c' : Option Entry} {held' : List Address} (ht : Turn h ⟨a, c⟩ held h₁)
    (ht' : Turn h ⟨a, c'⟩ held' h₂) : c = c' ∧ held = held' ∧ h₁ = h₂ := by
  cases ht with
  | @lower _ e hg h1 =>
      cases ht' with
      | lower => exact ⟨rfl, rfl, rfl⟩
      | @collect _ e' hg' h1' =>
          obtain rfl : e = e' := Option.some.inj (hg.symm.trans hg')
          omega
  | @collect _ e hg h1 =>
      cases ht' with
      | @lower _ e' hg' h1' =>
          obtain rfl : e = e' := Option.some.inj (hg.symm.trans hg')
          omega
      | @collect _ e' hg' h1' =>
          obtain rfl : e = e' := Option.some.inj (hg.symm.trans hg')
          exact ⟨rfl, rfl, rfl⟩

theorem Loop.unique {log' : List Decrement} (hl : Loop h as log h₁) (hl' : Loop h as log' h₂) :
    log = log' ∧ h₁ = h₂ := by
  induction hl generalizing log' with
  | done h =>
      cases hl'
      exact ⟨rfl, rfl⟩
  | turn head tail ih =>
      cases hl' with
      | turn head' tail' =>
          obtain ⟨rfl, rfl, rfl⟩ := head.unique head'
          obtain ⟨rfl, rfl⟩ := ih tail'
          exact ⟨rfl, rfl⟩

/-- The loop goes on with what is further behind. -/
theorem Loop.append (hl : Loop h as own h₁) (hr : Loop h₁ bs rest h') :
    Loop h (as ++ bs) (own ++ rest) h' := by
  induction hl with
  | done h => exact hr
  | @turn h h₂ _ a c held pending log head tail ih =>
      have htail := ih hr
      rw [List.append_assoc] at htail
      exact .turn head htail

/-- A cascade of a list is one of its front, then one of its back. -/
theorem Cascade.split (hc : Cascade h (as ++ bs) log h') :
    ∃ own h₁ rest, Cascade h as own h₁ ∧ Cascade h₁ bs rest h' ∧ log = own ++ rest := by
  induction as generalizing h log with
  | nil => exact ⟨[], h, log, .nil h, hc, rfl⟩
  | cons a as ih =>
      cases hc with
      | cons head inner tail =>
          obtain ⟨front, h₁, rest, hfront, hrest, rfl⟩ := ih tail
          exact ⟨_, h₁, rest, .cons head inner hfront, hrest, by
            rw [List.cons_append, List.append_assoc]⟩

/-- **The list of pending addresses works like the recursion**: the same decrements in the same
order, with the same entries collected at each. -/
theorem loop_iff_cascade : Loop h as log h' ↔ Cascade h as log h' := by
  constructor
  · intro hl
    induction hl with
    | done h => exact .nil h
    | turn head tail ih =>
        obtain ⟨own, h₂, rest, hown, hrest, rfl⟩ := ih.split
        exact .cons head hown hrest
  · intro hc
    induction hc with
    | nil h => exact .done h
    | cons head inner tail ihInner ihTail => exact .turn head (ihInner.append ihTail)

/-! ### The log of a release -/

theorem Loop.releaseAll (hl : Loop h as log h') : h.releaseAll as = .ok (collectedBy log) h' := by
  induction hl with
  | done h => exact releaseAll_nil h
  | turn head tail ih =>
      cases head with
      | lower hg h1 => exact (releaseAll_lower hg h1).trans ih
      | collect hg h1 => rw [releaseAll_collect hg h1, ih, collectedBy_cons_some]

/-- A release that succeeds runs the loop and returns what its log collects. -/
theorem releaseAll_eq_ok_iff :
    h.releaseAll as = .ok collected h' ↔ ∃ log, Loop h as log h' ∧ collectedBy log = collected := by
  constructor
  · refine releaseAll_ok_induct
      (motive := fun h as collected => ∃ log, Loop h as log h' ∧ collectedBy log = collected)
      ⟨[], .done h', rfl⟩ ?_ ?_
    · rintro h a e pending _ hg h1 ⟨log, hl, rfl⟩
      exact ⟨_, .turn (.collect hg h1) hl, rfl⟩
    · rintro h a e pending _ hg h1 ⟨log, hl, rfl⟩
      exact ⟨_, .turn (.lower hg h1) hl, rfl⟩
  · rintro ⟨log, hl, rfl⟩
    exact hl.releaseAll

/-! ### Balanced heaps -/

/-- Balance entry by entry: counts are positive and count the holders, and nothing dangles. -/
theorem balanced_iff : h.Balanced ext ↔ h.Distinct ∧
    (∀ e ∈ h.entries, 0 < e.refs ∧ e.refs = ext e.address + h.references.count e.address) ∧
      (∀ a ∈ h.references, h.contains a = true) ∧ ∀ a, 0 < ext a → h.contains a = true := by
  constructor
  · intro hb
    have hlive : ∀ a, 0 < ext a + h.references.count a → h.contains a = true := fun a ha =>
      Option.isSome_iff_exists.2 (hb.exists_get? ha)
    refine ⟨hb.distinct, fun e he => ⟨hb.positive e he, ?_⟩, fun a ha => ?_, fun a ha => ?_⟩
    · rw [← hb.counted, refsAt_of_get? (hb.distinct.get?_of_mem he)]
    · exact hlive a (Nat.add_pos_right _ (List.count_pos_iff.2 ha))
    · exact hlive a (Nat.add_pos_left ha _)
  · rintro ⟨hd, hcounts, hheld, hext⟩
    refine ⟨hd, fun e he => (hcounts e he).1, fun a => ?_⟩
    cases hg : h.get? a with
    | some e =>
        rw [refsAt_of_get? hg, (hcounts e (mem_of_get? hg)).2, address_of_get? hg]
    | none =>
        -- A dead address has no holder, neither outside nor in the heap.
        have hdead : h.contains a = false := by rw [contains, hg]; rfl
        have hout : ext a = 0 := by
          by_contra hne
          exact Bool.false_ne_true (hdead.symm.trans (hext a (Nat.pos_of_ne_zero hne)))
        have hin : h.references.count a = 0 := by
          refine List.count_eq_zero.2 fun hm => ?_
          exact Bool.false_ne_true (hdead.symm.trans (hheld a hm))
        rw [refsAt_eq_zero hg, hout, hin]

instance (h : Heap) : Decidable h.Distinct :=
  inferInstanceAs (Decidable (List.Nodup _))

instance (h : Heap) (holders : List Address) : Decidable (h.Balanced fun a => holders.count a) :=
  decidable_of_iff (h.Distinct ∧
      (∀ e ∈ h.entries, 0 < e.refs ∧
        e.refs = holders.count e.address + h.references.count e.address) ∧
      (∀ a ∈ h.references, h.contains a = true) ∧ ∀ a ∈ holders, h.contains a = true) <| by
    rw [balanced_iff]
    simp only [List.count_pos_iff]

/-- **Release is exact.**  On a balanced heap, whatever its nesting, sharing and cycles, releasing
an address that has a holder outside succeeds.  It makes the decrements of the recursive cascade, in
that order, and returns the entries collected on the way; these and the entries that stay are those
there were, counts apart, and what stays is balanced with that one holder gone. -/
theorem release_exact (hb : h.Balanced ext) (ha : 0 < ext a) :
    ∃ log h', Cascade h [a] log h' ∧ Loop h [a] log h' ∧ release a h = .ok (collectedBy log) h' ∧
      (∀ log' h'', Cascade h [a] log' h'' → log' = log ∧ h'' = h') ∧
      h'.Balanced (fun b => if b = a then ext b - 1 else ext b) ∧
      h.Released (collectedBy log) h' := by
  have hpending : h.Balanced fun b => (if b = a then ext b - 1 else ext b) + [a].count b := by
    refine hb.congr fun b => ?_
    rw [List.count_singleton]
    by_cases hba : b = a
    · subst hba
      rw [if_pos rfl, if_pos (beq_self_eq_true _)]
      omega
    · rw [if_neg hba, if_neg (by simpa using Ne.symm hba), Nat.add_zero]
  obtain ⟨collected, h', hr, hb', hrel⟩ := releaseAll_spec hpending
  obtain ⟨log, hl, rfl⟩ := releaseAll_eq_ok_iff.1 hr
  refine ⟨log, h', loop_iff_cascade.1 hl, hl, hr, fun log' h'' hc => ?_, hb', hrel⟩
  exact (loop_iff_cascade.2 hc).unique hl

/-- An array that holds one object twice and shares another array, beside a cycle. -/
def sharedHeap : Heap where
  entries := [
    ⟨⟨"0x2"⟩, .object "Item", .object [], 2, 0⟩,
    ⟨⟨"0x3"⟩, .array (.object "Item"), .array [.arrayRef ⟨"0x4"⟩], 2, 1⟩,
    ⟨⟨"0x4"⟩, .array (.object "Item"), .array [.arrayRef ⟨"0x3"⟩, .null], 1, 2⟩,
    ⟨⟨"0x5"⟩, .array (.object "Item"),
      .array [.objectRef ⟨"0x2"⟩, .arrayRef ⟨"0x3"⟩, .objectRef ⟨"0x2"⟩], 1, 3⟩]
  nextSequence := 4
  limit := 8

theorem release_exact_sharedHeap :
    sharedHeap.Balanced (fun b => [(⟨"0x5"⟩ : Address)].count b) ∧
      0 < [(⟨"0x5"⟩ : Address)].count ⟨"0x5"⟩ ∧
      ∃ log h', Cascade sharedHeap [⟨"0x5"⟩] log h' ∧
        release ⟨"0x5"⟩ sharedHeap = .ok (collectedBy log) h' ∧
        h'.Balanced (fun b => if b = ⟨"0x5"⟩ then [(⟨"0x5"⟩ : Address)].count b - 1
          else [(⟨"0x5"⟩ : Address)].count b) ∧
        sharedHeap.Released (collectedBy log) h' := by
  have hb : sharedHeap.Balanced fun b => [(⟨"0x5"⟩ : Address)].count b := by decide +kernel
  have ha : 0 < [(⟨"0x5"⟩ : Address)].count ⟨"0x5"⟩ := by decide
  obtain ⟨log, h', hc, -, hr, -, hb', hrel⟩ := release_exact hb ha
  exact ⟨hb, ha, log, h', hc, hr, hb', hrel⟩

/-- The shared array and the cycle stay; the object goes with its second holder. -/
example : (match release ⟨"0x5"⟩ sharedHeap with
    | .ok collected h => (collected.map (·.address.token), h.entries.map (·.address.token))
    | .error _ _ => ([], [])) = (["0x5", "0x2"], ["0x3", "0x4"]) := by decide +kernel

end Heap

end StackHeap.Store
