import Mathlib.Data.List.Count
import Mathlib.Data.List.Nodup
import StackHeap.Store.Heap

/-! # The balance of the heap

Reference counting kept as an account.  A heap is *balanced* with respect to a number of outside
holders for every address if each stored count is the number of outside holders plus the number of
references that live entries hold (`Heap.Balanced`).

Each operation moves the account by what it is told to:

* `retained` adds a holder outside for every address given (`Balanced.retained`);
* `appended` turns the holders of an entry's references into one holder of the entry
  (`Balanced.appended`);
* `releaseAll` takes one holder away for every pending address (`releaseAll_spec`).  While it runs,
  the pending addresses are holders outside: collecting an entry makes its references pending, so
  the account never changes otherwise, and no pending address can dangle.

Entries are otherwise left alone: what is kept differs in its counts only (`Kept`). -/

namespace StackHeap.Store

/-- An entry with its count forgotten. -/
def Entry.uncounted (e : Entry) : Entry := { e with refs := 0 }

@[simp] theorem Entry.uncounted_updateRefs (a : Address) (f : Nat → Nat) (e : Entry) :
    (e.updateRefs a f).uncounted = e.uncounted := by
  unfold Entry.updateRefs Entry.uncounted
  split <;> rfl

@[simp] theorem Entry.contents_updateRefs (a : Address) (f : Nat → Nat) (e : Entry) :
    (e.updateRefs a f).contents = e.contents := by
  unfold Entry.updateRefs
  split <;> rfl

theorem Entry.updateRefs_of_eq {a : Address} {e : Entry} (f : Nat → Nat) (h : e.address = a) :
    e.updateRefs a f = { e with refs := f e.refs } := if_pos h

theorem Entry.updateRefs_of_ne {a : Address} {e : Entry} (f : Nat → Nat) (h : e.address ≠ a) :
    e.updateRefs a f = e := if_neg h

namespace Heap

variable {h h' : Heap} {a b : Address} {e : Entry} {ext : Address → Nat}

/-! ### What the heap holds -/

/-- The addresses that live entries hold, once for each holder. -/
def references (h : Heap) : List Address := h.entries.flatMap (·.contents.references)

/-- The count stored for an address; zero if there is no live entry. -/
def refsAt (h : Heap) (a : Address) : Nat := (h.get? a).elim 0 Entry.refs

/-- Live entries have addresses of their own. -/
def Distinct (h : Heap) : Prop := (h.entries.map Entry.address).Nodup

theorem mem_of_get? (hg : h.get? a = some e) : e ∈ h.entries := List.mem_of_find?_eq_some hg

theorem refsAt_of_get? (hg : h.get? a = some e) : h.refsAt a = e.refs := by
  rw [refsAt, hg]
  rfl

theorem refsAt_eq_zero (hg : h.get? a = none) : h.refsAt a = 0 := by
  rw [refsAt, hg]
  rfl

/-- An entry stands at one place of the list only. -/
theorem Distinct.split (hd : h.Distinct) (hg : h.get? a = some e) :
    ∃ l r, h.entries = l ++ e :: r ∧ (∀ x ∈ l, x.address ≠ a) ∧ ∀ x ∈ r, x.address ≠ a := by
  obtain ⟨l, r, hs⟩ := List.append_of_mem (mem_of_get? hg)
  have ha := address_of_get? hg
  rw [Distinct, hs, List.map_append, List.map_cons, List.nodup_append'] at hd
  obtain ⟨-, hr, hlr⟩ := hd
  refine ⟨l, r, hs, ?_, ?_⟩
  · intro x hx hxa
    exact hlr (List.mem_map_of_mem hx) (by rw [hxa, ← ha]; exact List.mem_cons_self)
  · intro x hx hxa
    apply (List.nodup_cons.1 hr).1
    rw [ha, ← hxa]
    exact List.mem_map_of_mem hx

theorem Distinct.get?_of_mem (hd : h.Distinct) (he : e ∈ h.entries) :
    h.get? e.address = some e := by
  rw [Distinct] at hd
  unfold get?
  generalize h.entries = es at hd he
  induction es with
  | nil => exact absurd he List.not_mem_nil
  | cons x es ih =>
      rw [List.map_cons, List.nodup_cons] at hd
      rcases List.mem_cons.1 he with rfl | he
      · exact List.find?_cons_of_pos (by simp)
      · have hne : x.address ≠ e.address := fun hx => hd.1 (hx ▸ List.mem_map_of_mem he)
        rw [List.find?_cons_of_neg (by simpa using hne)]
        exact ih hd.2 he

/-! ### Single updates -/

theorem entries_remove_of_split {l r : List Entry} (hs : h.entries = l ++ e :: r)
    (ha : e.address = a) (hl : ∀ x ∈ l, x.address ≠ a) (hr : ∀ x ∈ r, x.address ≠ a) :
    (h.remove a).entries = l ++ r := by
  show h.entries.filter _ = _
  rw [hs, List.filter_append, List.filter_cons_of_neg (by simpa using ha),
    List.filter_eq_self.2 (by simpa using hl), List.filter_eq_self.2 (by simpa using hr)]

@[simp] theorem addresses_updateRefs (h : Heap) (a : Address) (f : Nat → Nat) :
    (h.updateRefs a f).entries.map Entry.address = h.entries.map Entry.address := by
  rw [updateRefs, List.map_map]
  exact List.map_congr_left fun e _ => Entry.address_updateRefs a f e

@[simp] theorem references_updateRefs (h : Heap) (a : Address) (f : Nat → Nat) :
    (h.updateRefs a f).references = h.references := by
  simp only [references, updateRefs, List.flatMap_map, Entry.contents_updateRefs]

theorem refsAt_updateRefs (hg : h.get? a = some e) (f : Nat → Nat) (b : Address) :
    (h.updateRefs a f).refsAt b = if b = a then f e.refs else h.refsAt b := by
  rw [refsAt, get?_updateRefs]
  split
  · next hba =>
      subst hba
      rw [hg, Option.map_some, Entry.updateRefs_of_eq f (address_of_get? hg)]
      rfl
  · next hba =>
      unfold refsAt
      cases hb : h.get? b with
      | none => rfl
      | some x =>
          have hx : x.address ≠ a := fun hx => hba ((address_of_get? hb).symm.trans hx)
          rw [Option.map_some, Entry.updateRefs_of_ne f hx]

theorem refsAt_remove (h : Heap) (a b : Address) :
    (h.remove a).refsAt b = if b = a then 0 else h.refsAt b := by
  rw [refsAt, get?_remove]
  split <;> rfl

/-- Removing an entry drops the references it held and no others. -/
theorem Distinct.count_references_remove (hd : h.Distinct) (hg : h.get? a = some e) (b : Address) :
    h.references.count b = e.contents.references.count b + (h.remove a).references.count b := by
  obtain ⟨l, r, hs, hl, hr⟩ := hd.split hg
  have hrm := entries_remove_of_split hs (address_of_get? hg) hl hr
  simp only [references, hrm, hs, List.flatMap_append, List.flatMap_cons, List.count_append]
  omega

/-! ### Balance -/

/-- Every stored count is the number of holders: `ext` outside the heap, the others inside. -/
structure Balanced (h : Heap) (ext : Address → Nat) : Prop where
  distinct : h.Distinct
  positive : ∀ e ∈ h.entries, 0 < e.refs
  counted : ∀ a, h.refsAt a = ext a + h.references.count a

namespace Balanced

theorem congr {ext' : Address → Nat} (hb : h.Balanced ext) (he : ∀ a, ext a = ext' a) :
    h.Balanced ext' where
  distinct := hb.distinct
  positive := hb.positive
  counted a := by rw [hb.counted, he]

/-- What is held is live. -/
theorem exists_get? (hb : h.Balanced ext) (ha : 0 < ext a + h.references.count a) :
    ∃ e, h.get? a = some e := by
  cases hg : h.get? a with
  | some e => exact ⟨e, rfl⟩
  | none =>
      rw [← hb.counted, refsAt_eq_zero hg] at ha
      exact absurd ha (Nat.lt_irrefl 0)

/-- A dead address has no holders. -/
theorem not_held (hb : h.Balanced ext) (hg : h.get? a = none) :
    ext a = 0 ∧ h.references.count a = 0 := by
  have hc := hb.counted a
  rw [refsAt_eq_zero hg] at hc
  omega

/-- Collecting an entry on its last holder leaves its references pending. -/
theorem remove {pending : List Address} (hb : h.Balanced fun b => ext b + (a :: pending).count b)
    (hg : h.get? a = some e) (h1 : e.refs = 1) :
    (h.remove a).Balanced fun b => ext b + (e.contents.references ++ pending).count b where
  distinct := hb.distinct.sublist (List.filter_sublist.map _)
  positive x hx := hb.positive x (List.mem_filter.1 hx).1
  counted b := by
    have hc := hb.counted b
    have hr := hb.distinct.count_references_remove hg b
    rw [refsAt_remove]
    simp only [List.count_append, List.count_cons, beq_iff_eq] at hc ⊢
    split
    · next hba =>
        subst hba
        rw [refsAt_of_get? hg, h1, if_pos rfl] at hc
        omega
    · next hba =>
        rw [if_neg (Ne.symm hba)] at hc
        omega

/-- Changing the count of an entry by as much as its holders outside change. -/
theorem updateRefs {ext' : Address → Nat} (hb : h.Balanced ext) (hg : h.get? a = some e)
    {f : Nat → Nat} (hf : 0 < f e.refs) (ha : ext' a + e.refs = ext a + f e.refs)
    (hne : ∀ b, b ≠ a → ext' b = ext b) : (h.updateRefs a f).Balanced ext' where
  distinct := by
    rw [Distinct, addresses_updateRefs]
    exact hb.distinct
  positive x hx := by
    obtain ⟨y, hy, rfl⟩ := List.mem_map.1 hx
    by_cases hya : y.address = a
    · have hye : some y = some e := by rw [← hg, ← hya, hb.distinct.get?_of_mem hy]
      rw [Entry.updateRefs_of_eq _ hya, Option.some.inj hye]
      exact hf
    · rw [Entry.updateRefs_of_ne _ hya]
      exact hb.positive y hy
  counted b := by
    have hc := hb.counted b
    rw [refsAt_updateRefs hg, references_updateRefs]
    split
    · next hba =>
        subst hba
        rw [refsAt_of_get? hg] at hc
        omega
    · next hba =>
        rw [hne b hba]
        exact hc

/-- Taking a pending holder away from an entry that has others. -/
theorem lower {pending : List Address} (hb : h.Balanced fun b => ext b + (a :: pending).count b)
    (hg : h.get? a = some e) (h1 : 1 < e.refs) :
    (h.updateRefs a (· - 1)).Balanced fun b => ext b + pending.count b := by
  refine hb.updateRefs hg (Nat.sub_pos_of_lt h1) ?_ fun b hba => ?_
  · rw [List.count_cons_self]
    omega
  · rw [List.count_cons_of_ne (Ne.symm hba)]

/-- Adding a holder to a live entry. -/
theorem raise (hb : h.Balanced ext) (hg : h.get? a = some e) :
    (h.updateRefs a (· + 1)).Balanced fun b => ext b + [a].count b := by
  refine hb.updateRefs hg (Nat.succ_pos _) ?_ fun b hba => ?_
  · rw [List.count_singleton_self]
    omega
  · rw [List.count_singleton, if_neg (by simpa using Ne.symm hba), Nat.add_zero]

end Balanced

/-! ### Entries kept -/

/-- The entries of `h'` are entries of `h` in the same order, with other counts at most. -/
structure Kept (h h' : Heap) : Prop where
  entries : (h'.entries.map Entry.uncounted).Sublist (h.entries.map Entry.uncounted)
  limit : h'.limit = h.limit
  nextSequence : h'.nextSequence = h.nextSequence

namespace Kept

theorem refl (h : Heap) : h.Kept h := ⟨List.Sublist.refl _, rfl, rfl⟩

theorem trans {h'' : Heap} (h₁ : h.Kept h') (h₂ : h'.Kept h'') : h.Kept h'' :=
  ⟨h₂.entries.trans h₁.entries, h₂.limit.trans h₁.limit, h₂.nextSequence.trans h₁.nextSequence⟩

theorem updateRefs (h : Heap) (a : Address) (f : Nat → Nat) : h.Kept (h.updateRefs a f) where
  entries := by
    simp only [Heap.updateRefs, List.map_map, Function.comp_def, Entry.uncounted_updateRefs]
    exact List.Sublist.refl _
  limit := rfl
  nextSequence := rfl

theorem remove (h : Heap) (a : Address) : h.Kept (h.remove a) :=
  ⟨List.filter_sublist.map _, rfl, rfl⟩

/-- A kept entry was there before, with some count. -/
theorem exists_mem (hk : h.Kept h') (he : e ∈ h'.entries) :
    ∃ n, { e with refs := n } ∈ h.entries := by
  obtain ⟨x, hx, hxe⟩ := List.mem_map.1 (hk.entries.subset (List.mem_map_of_mem he))
  refine ⟨x.refs, ?_⟩
  have : x = { e with refs := x.refs } := by
    cases x
    cases e
    simp only [Entry.uncounted, Entry.mk.injEq] at hxe ⊢
    exact ⟨hxe.1, hxe.2.1, hxe.2.2.1, trivial, hxe.2.2.2.2⟩
  rwa [← this]

theorem below (hk : h.Kept h') (hb : ∀ x ∈ h.entries, x.sequence < h.nextSequence) :
    ∀ x ∈ h'.entries, x.sequence < h'.nextSequence := by
  intro x hx
  obtain ⟨n, hn⟩ := hk.exists_mem hx
  have hlt := hb _ hn
  rwa [hk.nextSequence]

end Kept

/-! ### Retention and allocation -/

/-- The heap with one more holder for each of some addresses. -/
def retained (h : Heap) (as : List Address) : Heap := as.foldl (fun h a => h.updateRefs a (· + 1)) h

/-- The heap with one more entry. -/
def appended (h : Heap) (e : Entry) : Heap :=
  { h with entries := h.entries ++ [e], nextSequence := h.nextSequence + 1 }

theorem isSome_get?_updateRefs (h : Heap) (a b : Address) (f : Nat → Nat) :
    ((h.updateRefs a f).get? b).isSome = (h.get? b).isSome := by
  rw [get?_updateRefs, Option.isSome_map]

theorem isSome_get?_retained (h : Heap) (as : List Address) (b : Address) :
    ((h.retained as).get? b).isSome = (h.get? b).isSome := by
  induction as generalizing h with
  | nil => rfl
  | cons a as ih => exact (ih _).trans (isSome_get?_updateRefs h a b _)

theorem hasRoom_retained (h : Heap) (as : List Address) (n : Nat) :
    (h.retained as).hasRoom n = h.hasRoom n := by
  induction as generalizing h with
  | nil => rfl
  | cons a as ih =>
      refine (ih _).trans ?_
      simp only [hasRoom, updateRefs, List.length_map]

theorem get?_retained_eq_none (hg : h.get? a = none) (as : List Address) :
    (h.retained as).get? a = none := by
  rw [← Option.not_isSome_iff_eq_none, isSome_get?_retained, hg]
  exact Bool.false_ne_true

theorem get_ok (h : Heap) : (get : HeapM Heap) h = .ok h h := rfl

/-- Retaining live addresses succeeds. -/
theorem retainAll_eq {as : List Address} (hl : ∀ a ∈ as, (h.get? a).isSome) :
    retainAll as h = .ok () (h.retained as) := by
  induction as generalizing h with
  | nil => rfl
  | cons a as ih =>
      obtain ⟨e, he⟩ := Option.isSome_iff_exists.1 (hl a List.mem_cons_self)
      have hr : retain a h = .ok (e.refs + 1) (h.updateRefs a (· + 1)) := by
        simp only [retain, bind, EStateM.bind, get_ok, he]
        rfl
      have hrest := ih (h := h.updateRefs a (· + 1)) fun b hb => by
        rw [isSome_get?_updateRefs]
        exact hl b (List.mem_cons_of_mem _ hb)
      simp only [retainAll, bind, EStateM.bind, hr, hrest]
      rfl

theorem Balanced.retained {as : List Address} (hb : h.Balanced ext)
    (hl : ∀ a ∈ as, (h.get? a).isSome) : (h.retained as).Balanced fun b => ext b + as.count b := by
  induction as generalizing h ext with
  | nil => exact hb.congr fun b => by rw [List.count_nil, Nat.add_zero]
  | cons a as ih =>
      obtain ⟨e, he⟩ := Option.isSome_iff_exists.1 (hl a List.mem_cons_self)
      have hrest := ih (hb.raise he) fun b hb => by
        rw [isSome_get?_updateRefs]
        exact hl b (List.mem_cons_of_mem _ hb)
      refine hrest.congr fun b => ?_
      rw [Nat.add_assoc, ← List.count_append]
      rfl

theorem Kept.retained (h : Heap) (as : List Address) : h.Kept (h.retained as) := by
  induction as generalizing h with
  | nil => exact Kept.refl h
  | cons a as ih => exact (Kept.updateRefs h a _).trans (ih _)

theorem allocate_eq {type : DeclaredType} {contents : Contents} (hr : h.hasRoom 1 = true)
    (hg : h.get? a = none) :
    allocate a type contents h = .ok () (h.appended ⟨a, type, contents, 1, h.nextSequence⟩) := by
  have hc : h.contains a = false := by rw [contains, hg]; rfl
  simp only [allocate, bind, EStateM.bind, get_ok, hr, hc, Bool.not_true, Bool.false_eq_true,
    if_false]
  rfl

theorem Distinct.appended (hd : h.Distinct) (hg : h.get? e.address = none) :
    (h.appended e).Distinct := by
  rw [Distinct, Heap.appended, List.map_append, List.nodup_append']
  refine ⟨hd, List.nodup_singleton _, ?_⟩
  intro x hx hxe
  obtain ⟨y, hy, hyx⟩ := List.mem_map.1 hx
  have hxe : x = e.address := List.mem_singleton.1 hxe
  have := hd.get?_of_mem hy
  rw [hyx, hxe, hg] at this
  cases this

/-- The next sequence number stays above those in use. -/
theorem below_appended (hb : ∀ x ∈ h.entries, x.sequence < h.nextSequence)
    (he : e.sequence = h.nextSequence) :
    ∀ x ∈ (h.appended e).entries, x.sequence < (h.appended e).nextSequence := by
  intro x hx
  rcases List.mem_append.1 hx with hx | hx
  · exact Nat.lt_succ_of_lt (hb x hx)
  · rw [List.mem_singleton.1 hx, he]
    exact Nat.lt_succ_self _

/-- A new entry takes over the holders of its references and has one holder itself. -/
theorem Balanced.appended (hb : h.Balanced fun b => ext b + e.contents.references.count b)
    (hg : h.get? e.address = none) (h1 : e.refs = 1) :
    (h.appended e).Balanced fun b => ext b + [e.address].count b where
  distinct := hb.distinct.appended hg
  positive x hx := by
    rcases List.mem_append.1 hx with hx | hx
    · exact hb.positive x hx
    · rw [List.mem_singleton.1 hx, h1]
      exact Nat.one_pos
  counted b := by
    have hc := hb.counted b
    have hrefs : (h.appended e).references = h.references ++ e.contents.references := by
      simp only [references, Heap.appended, List.flatMap_append, List.flatMap_cons,
        List.flatMap_nil, List.append_nil]
    have hget : (h.appended e).get? b = (h.get? b).or (if e.address = b then some e else none) := by
      simp only [get?, Heap.appended, List.find?_append, List.find?_singleton, decide_eq_true_eq]
    rw [hrefs, List.count_append, List.count_singleton]
    by_cases hbe : e.address = b
    · subst hbe
      rw [refsAt_eq_zero hg] at hc
      rw [refsAt, hget, hg, if_pos rfl, if_pos (beq_self_eq_true _)]
      simp only [Option.none_or, Option.elim_some, h1]
      omega
    · rw [refsAt, hget, if_neg hbe, if_neg (by simpa using hbe), Option.or_none, ← refsAt]
      omega

/-! ### Release -/

/-- What a release keeps of a heap and what it collects, which together are the heap. -/
structure Released (h : Heap) (collected : List Entry) (h' : Heap) : Prop extends Kept h h' where
  parts : (collected ++ h'.entries.map Entry.uncounted).Perm (h.entries.map Entry.uncounted)

theorem Released.refl (h : Heap) : h.Released [] h where
  toKept := Kept.refl h
  parts := List.Perm.refl _

theorem Released.updateRefs {collected : List Entry} {f : Nat → Nat}
    (hr : (h.updateRefs a f).Released collected h') : h.Released collected h' where
  toKept := (Kept.updateRefs h a f).trans hr.toKept
  parts := by
    have hp := hr.parts
    simpa only [Heap.updateRefs, List.map_map, Function.comp_def, Entry.uncounted_updateRefs]
      using hp

theorem Released.remove {collected : List Entry} (hd : h.Distinct) (hg : h.get? a = some e)
    (hr : (h.remove a).Released collected h') : h.Released (e.uncounted :: collected) h' where
  toKept := (Kept.remove h a).trans hr.toKept
  parts := by
    obtain ⟨l, r, hs, hl, hr'⟩ := hd.split hg
    have hp := hr.parts
    rw [entries_remove_of_split hs (address_of_get? hg) hl hr', List.map_append] at hp
    rw [hs, List.map_append, List.map_cons]
    exact (hp.cons e.uncounted).trans List.perm_middle.symm

theorem releaseAll_nil (h : Heap) : h.releaseAll [] = .ok [] h := by rw [releaseAll]

/-- The last holder of an entry goes: the entry is collected and its references are next. -/
theorem releaseAll_collect {pending : List Address} (hg : h.get? a = some e) (h1 : e.refs = 1) :
    h.releaseAll (a :: pending) =
      match (h.remove a).releaseAll (e.contents.references ++ pending) with
      | .ok collected h => .ok (e.uncounted :: collected) h
      | .error fault h => .error fault h := by
  rw [releaseAll]
  split
  · next hn => rw [hg] at hn; cases hn
  · next x hx =>
      obtain rfl : e = x := Option.some.inj (hg.symm.trans hx)
      rw [dif_neg (by omega), if_pos h1]
      rfl

/-- A holder of an entry with others goes. -/
theorem releaseAll_lower {pending : List Address} (hg : h.get? a = some e) (h1 : 1 < e.refs) :
    h.releaseAll (a :: pending) = (h.updateRefs a (· - 1)).releaseAll pending := by
  rw [releaseAll]
  split
  · next hn => rw [hg] at hn; cases hn
  · next x hx =>
      obtain rfl : e = x := Option.some.inj (hg.symm.trans hx)
      rw [dif_neg (by omega), if_neg (by omega)]

theorem releaseAll_dangling {pending : List Address} (hg : h.get? a = none) :
    h.releaseAll (a :: pending) = .error (.broken (.dangling a)) h := by
  rw [releaseAll]
  split
  · rfl
  · next x hx => rw [hg] at hx; cases hx

theorem releaseAll_negative {pending : List Address} (hg : h.get? a = some e) (hz : e.refs = 0) :
    h.releaseAll (a :: pending) = .error (.broken (.negativeCount a)) h := by
  rw [releaseAll]
  split
  · next hn => rw [hg] at hn; cases hn
  · next x hx =>
      obtain rfl : e = x := Option.some.inj (hg.symm.trans hx)
      rw [dif_pos hz]

/-- Releasing more addresses goes on where the others end. -/
theorem releaseAll_append (h : Heap) (as bs : List Address) :
    h.releaseAll (as ++ bs) =
      match h.releaseAll as with
      | .ok collected h₁ =>
        match h₁.releaseAll bs with
        | .ok more h₂ => .ok (collected ++ more) h₂
        | .error fault h₂ => .error fault h₂
      | .error fault h₁ => .error fault h₁ := by
  induction h, as using releaseAll.induct with
  | case1 h =>
      rw [releaseAll_nil, List.nil_append]
      dsimp only
      cases h.releaseAll bs <;> rfl
  | case2 h a pending hg => rw [List.cons_append, releaseAll_dangling hg, releaseAll_dangling hg]
  | case3 h a pending e hg hz =>
      rw [List.cons_append, releaseAll_negative hg hz, releaseAll_negative hg hz]
  | case4 h a pending e hg hz h1 collected h₁ heq ih =>
      rw [List.append_assoc, heq] at ih
      rw [List.cons_append, releaseAll_collect hg h1, releaseAll_collect hg h1, heq, ih]
      dsimp only
      cases h₁.releaseAll bs <;> rfl
  | case5 h a pending e hg hz h1 fault h₁ heq ih =>
      rw [List.append_assoc, heq] at ih
      rw [List.cons_append, releaseAll_collect hg h1, releaseAll_collect hg h1, heq, ih]
  | case6 h a pending e hg hz h1 ih =>
      have h2 : 1 < e.refs := by omega
      rw [List.cons_append, releaseAll_lower hg h2, releaseAll_lower hg h2, ih]

/-- Induction over a release that succeeds: it ends, collects an entry, or lowers a count. -/
theorem releaseAll_ok_induct {motive : Heap → List Address → List Entry → Prop}
    (nil : motive h' [] [])
    (collect : ∀ {h : Heap} {a : Address} {e : Entry} {pending : List Address}
      {collected : List Entry}, h.get? a = some e → e.refs = 1 →
      motive (h.remove a) (e.contents.references ++ pending) collected →
      motive h (a :: pending) (e.uncounted :: collected))
    (lower : ∀ {h : Heap} {a : Address} {e : Entry} {pending : List Address}
      {collected : List Entry}, h.get? a = some e → 1 < e.refs →
      motive (h.updateRefs a (· - 1)) pending collected → motive h (a :: pending) collected)
    {pending : List Address} {collected : List Entry}
    (hr : h.releaseAll pending = .ok collected h') : motive h pending collected := by
  induction h, pending using releaseAll.induct generalizing collected with
  | case1 h =>
      rw [releaseAll_nil] at hr
      cases hr
      exact nil
  | case2 h a pending hg =>
      rw [releaseAll_dangling hg] at hr
      cases hr
  | case3 h a pending e hg hz =>
      rw [releaseAll_negative hg hz] at hr
      cases hr
  | case4 h a pending e hg hz h1 more h₁ heq ih =>
      rw [releaseAll_collect hg h1, heq] at hr
      cases hr
      exact collect hg h1 (ih heq)
  | case5 h a pending e hg hz h1 fault h₁ heq ih =>
      rw [releaseAll_collect hg h1, heq] at hr
      cases hr
  | case6 h a pending e hg hz h1 ih =>
      have h2 : 1 < e.refs := by omega
      rw [releaseAll_lower hg h2] at hr
      exact lower hg h2 (ih hr)

/-- Releasing keeps entries as they are, whatever the counts. -/
theorem Kept.of_releaseAll {pending : List Address} {collected : List Entry}
    (hr : h.releaseAll pending = .ok collected h') : h.Kept h' := by
  refine releaseAll_ok_induct (motive := fun h _ _ => h.Kept h') (Kept.refl h') ?_ ?_ hr
  · intro h a e pending collected hg h1 ih
    exact (Kept.remove h a).trans ih
  · intro h a e pending collected hg h1 ih
    exact (Kept.updateRefs h a _).trans ih

/-- **Releasing succeeds on a balanced heap**: with the pending addresses among the holders outside,
it takes exactly these away. -/
theorem releaseAll_spec {pending : List Address}
    (hb : h.Balanced fun a => ext a + pending.count a) :
    ∃ collected h', h.releaseAll pending = .ok collected h' ∧ h'.Balanced ext ∧
      h.Released collected h' := by
  -- The recursion of `releaseAll`, whose branches that fail contradict the balance.
  induction h, pending using releaseAll.induct with
  | case1 h => exact ⟨[], h, releaseAll_nil h, hb.congr fun a => by simp, Released.refl h⟩
  | case2 h a pending hg =>
      have hn := (hb.not_held hg).1
      rw [List.count_cons_self] at hn
      omega
  | case3 h a pending e hg hz =>
      have hp := hb.positive e (mem_of_get? hg)
      omega
  | case4 h a pending e hg hz h1 collected h₃ heq ih =>
      obtain ⟨collected, h', hr, hb', hrel⟩ := ih (hb.remove hg h1)
      refine ⟨e.uncounted :: collected, h', ?_, hb', hrel.remove hb.distinct hg⟩
      rw [releaseAll_collect hg h1, hr]
  | case5 h a pending e hg hz h1 fault h₃ heq ih =>
      obtain ⟨collected, h', hr, -, -⟩ := ih (hb.remove hg h1)
      rw [hr] at heq
      cases heq
  | case6 h a pending e hg hz h1 ih =>
      have h2 : 1 < e.refs := by omega
      obtain ⟨collected, h', hr, hb', hrel⟩ := ih (hb.lower hg h2)
      exact ⟨collected, h', by rw [releaseAll_lower hg h2, hr], hb', hrel.updateRefs⟩

end Heap

end StackHeap.Store
