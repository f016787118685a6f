import Mathlib.Data.List.Infix
import Mathlib.Data.Nat.PSub
import StackHeap.History

/-! # What the history retains

The history drops its oldest records until a new one fits, and never takes one back.  All the same
it holds, after any records, the longest run of the most recent ones that fits the budget, or the
last one alone if that is larger than the whole budget (`keeps_longest_recent_run`).

* **One push** (`evict_spec`).  Of the records there are, those stay that form the longest run in
  front of the new one.
* **All pushes** (`Tracks`).  A run of the most recent records that fits together with the new one
  fits without it, so it was retained before (`Retains.push`).  That the records before the run are
  gone for good does no harm.
* **The sum.**  The running sum is that of the records retained, so what is taken off it is always
  part of it.  The same pushes with partial differences (`push?`) come to the same
  (`pushAll?_eq`). -/

namespace StackHeap.History

variable {budget : Nat} {pushes kept rs l : List Recorded} {r : Recorded} {h : History}

/-! ### Sums of sizes -/

/-- The sum of the sizes of some records. -/
def totalSize : List Recorded → Nat
  | [] => 0
  | r :: rs => r.snapshot.size + totalSize rs

@[simp] theorem totalSize_nil : totalSize [] = 0 := rfl

@[simp] theorem totalSize_cons (r : Recorded) (rs : List Recorded) :
    totalSize (r :: rs) = r.snapshot.size + totalSize rs := rfl

@[simp] theorem totalSize_append (rs ss : List Recorded) :
    totalSize (rs ++ ss) = totalSize rs + totalSize ss := by
  induction rs with
  | nil => rw [List.nil_append, totalSize_nil, Nat.zero_add]
  | cons r rs ih => rw [List.cons_append, totalSize_cons, totalSize_cons, ih, Nat.add_assoc]

/-! ### Pushes in turn -/

/-- The history after some records, the first one first. -/
def pushAll (h : History) (rs : List Recorded) : History :=
  rs.foldl (fun h r => h.push r.command r.snapshot) h

theorem pushAll_append_singleton (h : History) (rs : List Recorded) (r : Recorded) :
    h.pushAll (rs ++ [r]) = (h.pushAll rs).push r.command r.snapshot := List.foldl_concat ..

/-- Drops records like `evict`, with differences that have no value below zero. -/
def evict? (budget size usage dropped : Nat) :
    List Recorded → Option (List Recorded × Nat × Nat)
  | [] => some ([], usage, dropped)
  | r :: rs =>
    if budget < usage + size then do
      evict? budget size (← usage.psub r.snapshot.size) (dropped + 1) rs
    else some (r :: rs, usage, dropped)

/-- The history with one more record, with differences that have no value below zero. -/
def push? (h : History) (r : Recorded) : Option History := do
  let (kept, usage, evicted) ← evict? h.budget r.snapshot.size h.usage h.evicted h.records
  return { h with
    records := kept ++ [r], usage := usage + r.snapshot.size, evicted := evicted }

/-- The history after some records, with differences that have no value below zero. -/
def pushAll? (h : History) (rs : List Recorded) : Option History := rs.foldlM push? h

/-! ### One push -/

/-- What is left of some records in front of one of size `size`: the longest run of the last ones
with which it fits, or nothing. -/
structure LeftFor (budget size : Nat) (rs kept : List Recorded) : Prop where
  suffix : kept <:+ rs
  fits : kept = [] ∨ totalSize kept + size ≤ budget
  longest : ∀ l, l <:+ rs → totalSize l + size ≤ budget → l.length ≤ kept.length

/-- **Dropping the oldest leaves the longest run**, and its sum. -/
theorem evict_spec (budget size dropped : Nat) (rs : List Recorded) :
    LeftFor budget size rs (evict budget size (totalSize rs) dropped rs).1 ∧
      (evict budget size (totalSize rs) dropped rs).2.1 =
        totalSize (evict budget size (totalSize rs) dropped rs).1 := by
  induction rs generalizing dropped with
  | nil =>
      refine ⟨⟨List.suffix_refl _, .inl rfl, ?_⟩, rfl⟩
      intro l hl _
      exact hl.length_le
  | cons r rs ih =>
      have hsub : totalSize (r :: rs) - r.snapshot.size = totalSize rs := by
        rw [totalSize_cons]
        omega
      rw [evict, hsub]
      split
      · next hlt =>
        obtain ⟨⟨hs, hf, hl⟩, hu⟩ := ih (dropped + 1)
        refine ⟨⟨hs.trans (List.suffix_cons r rs), hf, ?_⟩, hu⟩
        intro l hlr hfit
        -- All of the records do not fit, so the run starts later.
        rcases List.suffix_cons_iff.1 hlr with rfl | hlr
        · omega
        · exact hl l hlr hfit
      · next hge =>
        refine ⟨⟨List.suffix_refl _, .inr (Nat.not_lt.1 hge), ?_⟩, rfl⟩
        intro l hl _
        exact hl.length_le

/-- Differences are those of a sum and a part of it. -/
theorem evict?_eq (budget size dropped : Nat) (rs : List Recorded) :
    evict? budget size (totalSize rs) dropped rs =
      some (evict budget size (totalSize rs) dropped rs) := by
  induction rs generalizing dropped with
  | nil => rfl
  | cons r rs ih =>
      have hsub : totalSize (r :: rs) - r.snapshot.size = totalSize rs := by
        rw [totalSize_cons]
        omega
      have hle : r.snapshot.size ≤ totalSize (r :: rs) := by
        rw [totalSize_cons]
        omega
      rw [evict?, evict, Nat.psub_eq_sub hle, hsub]
      split
      · exact ih (dropped + 1)
      · rfl

/-! ### All pushes -/

/-- The longest run of the most recent records that fits the budget. -/
structure LongestRun (budget : Nat) (pushes kept : List Recorded) : Prop where
  suffix : kept <:+ pushes
  fits : totalSize kept ≤ budget
  longest : ∀ l, l <:+ pushes → totalSize l ≤ budget → l.length ≤ kept.length

/-- What the history retains: a run of the most recent records, at least as long as any that fits the
budget, and only with a single record larger than the budget. -/
structure Retains (budget : Nat) (pushes kept : List Recorded) : Prop where
  suffix : kept <:+ pushes
  nonempty : pushes ≠ [] → kept ≠ []
  fits : kept.length ≠ 1 → totalSize kept ≤ budget
  longest : ∀ l, l <:+ pushes → totalSize l ≤ budget → l.length ≤ kept.length

namespace Retains

theorem nil (budget : Nat) : Retains budget [] [] where
  suffix := List.suffix_refl _
  nonempty hne := hne
  fits _ := Nat.zero_le _
  longest _ hl _ := hl.length_le

/-- **What is left in front of a new record is the longest run in front of it.** -/
theorem push (hr : Retains budget pushes rs) (hl : LeftFor budget r.snapshot.size rs kept) :
    Retains budget (pushes ++ [r]) (kept ++ [r]) where
  suffix := by
    obtain ⟨before, hb⟩ := hl.suffix.trans hr.suffix
    exact ⟨before, by rw [← List.append_assoc, hb]⟩
  nonempty _ := List.append_ne_nil_of_right_ne_nil _ (List.cons_ne_nil _ _)
  fits hne := by
    rcases hl.fits with rfl | hfit
    · exact absurd rfl hne
    · rw [totalSize_append, totalSize_cons, totalSize_nil]
      exact hfit
  longest l hs hfit := by
    rcases List.suffix_concat_iff.1 hs with rfl | ⟨run, rfl, hrun⟩
    · exact Nat.zero_le _
    · rw [totalSize_append, totalSize_cons, totalSize_nil, Nat.add_zero] at hfit
      have hlong := hr.longest run hrun (Nat.le_of_add_right_le hfit)
      have hin : run <:+ rs := List.suffix_of_suffix_length_le hrun hr.suffix hlong
      rw [List.length_append, List.length_append]
      exact Nat.add_le_add_right (hl.longest run hin hfit) _

/-- A last record that is larger than the budget is alone. -/
theorem eq_singleton (hr : Retains budget pushes kept) (hlast : pushes.getLast? = some r)
    (hb : budget < r.snapshot.size) : kept = [r] := by
  obtain ⟨front, rfl⟩ := List.getLast?_eq_some_iff.1 hlast
  rcases List.suffix_concat_iff.1 hr.suffix with rfl | ⟨run, rfl, -⟩
  · exact absurd rfl (hr.nonempty (List.append_ne_nil_of_right_ne_nil _ (List.cons_ne_nil _ _)))
  · have hfits := hr.fits
    rw [totalSize_append, totalSize_cons, List.length_append, List.length_singleton] at hfits
    have hrun : run.length = 0 := by
      by_contra hne
      have := hfits (by omega)
      omega
    rw [List.length_eq_zero_iff.1 hrun]
    rfl

/-- If the last record fits the budget, what is retained is the longest run that does. -/
theorem longestRun (hr : Retains budget pushes kept)
    (hlast : ∀ r, pushes.getLast? = some r → r.snapshot.size ≤ budget) :
    LongestRun budget pushes kept := by
  refine ⟨hr.suffix, ?_, hr.longest⟩
  by_cases hone : kept.length = 1
  · obtain ⟨r, rfl⟩ := List.length_eq_one_iff.1 hone
    obtain ⟨front, rfl⟩ := hr.suffix
    rw [totalSize_cons, totalSize_nil]
    exact hlast r List.getLast?_concat
  · exact hr.fits hone

end Retains

/-- A history after some pushes. -/
structure Tracks (budget : Nat) (pushes : List Recorded) (h : History) : Prop where
  limit : h.budget = budget
  retains : Retains budget pushes h.records
  usage : h.usage = totalSize h.records
  count : h.length + h.evicted = pushes.length

namespace Tracks

theorem new (budget : Nat) : Tracks budget [] { budget := budget } where
  limit := rfl
  retains := .nil budget
  usage := rfl
  count := rfl

theorem push (ht : Tracks budget pushes h) (r : Recorded) :
    Tracks budget (pushes ++ [r]) (h.push r.command r.snapshot) := by
  obtain ⟨hleft, hsum⟩ := evict_spec h.budget r.snapshot.size h.evicted h.records
  rw [← ht.usage] at hleft hsum
  refine ⟨ht.limit, ?_, ?_, ?_⟩
  · rw [ht.limit] at hleft
    simp only [History.push, ht.limit]
    exact ht.retains.push hleft
  · simp only [History.push, hsum]
    rw [totalSize_append, totalSize_cons, totalSize_nil, Nat.add_zero]
  · rw [length_add_evicted_push, ht.count, List.length_append, List.length_singleton]

theorem push?_eq (ht : Tracks budget pushes h) (r : Recorded) :
    h.push? r = some (h.push r.command r.snapshot) := by
  unfold push?
  rw [ht.usage, evict?_eq, ← ht.usage]
  rfl

theorem pushAll (rs : List Recorded) :
    Tracks budget rs (({ budget := budget } : History).pushAll rs) := by
  induction rs using List.reverseRecOn with
  | nil => exact .new budget
  | append_singleton rs r ih =>
      rw [pushAll_append_singleton]
      exact ih.push r

end Tracks

/-- No difference falls below zero. -/
theorem pushAll?_eq (budget : Nat) (rs : List Recorded) :
    ({ budget := budget } : History).pushAll? rs =
      some (({ budget := budget } : History).pushAll rs) := by
  induction rs using List.reverseRecOn with
  | nil => rfl
  | append_singleton rs r ih =>
      have ht : Tracks budget rs (({ budget := budget } : History).pushAll rs) := .pushAll rs
      rw [pushAll?] at ih
      rw [pushAll_append_singleton, pushAll?, List.foldlM_append, ih, Option.bind_eq_bind,
        Option.bind_some, List.foldlM_cons, ht.push?_eq]
      rfl

/-- **The history keeps the longest recent run that fits.**  After any records it holds the longest
run of the most recent ones whose sizes sum to at most the budget, or just the last one if that alone
exceeds it.  The running sum is that of the records held and is computed without falling below zero;
every record is held or was dropped; and the sum exceeds the budget with a single record only. -/
theorem keeps_longest_recent_run (budget : Nat) (pushes : List Recorded) :
    let h := ({ budget := budget } : History).pushAll pushes
    ((∀ r, pushes.getLast? = some r → r.snapshot.size ≤ budget) →
        LongestRun budget pushes h.records) ∧
      (∀ r, pushes.getLast? = some r → budget < r.snapshot.size → h.records = [r]) ∧
      h.usage = totalSize h.records ∧
      ({ budget := budget } : History).pushAll? pushes = some h ∧
      h.length + h.evicted = pushes.length ∧
      (h.usage ≤ budget ∨ h.length = 1) := by
  intro h
  have ht : Tracks budget pushes h := .pushAll pushes
  refine ⟨ht.retains.longestRun, fun r => ht.retains.eq_singleton, ht.usage, ?_, ht.count, ?_⟩
  · exact pushAll?_eq budget pushes
  · by_cases hone : h.length = 1
    · exact .inr hone
    · rw [ht.usage]
      exact .inl (ht.retains.fits hone)

end StackHeap.History
