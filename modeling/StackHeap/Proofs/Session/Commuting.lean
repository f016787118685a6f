import StackHeap.Proofs.Session.Initialising
import StackHeap.Proofs.Store.Commuting

/-! # Lines that commute

Two lines that assign variables, null or literals to different variables can change places, unless
one assigns the variable that the other changes (`independent_assignments_commute`): each of them is
carried out or rejected alike, and the memory is the same in the end.

* **Plans.**  Of the memory, planning a line sees the types of the innermost frame's variables only
  (`plan_congr`).  An assignment changes values and no types, so the other line stands for the same
  operation before it and after it (`plan_run_assigning`).
* **Operations.**  The operations that the lines stand for commute (`IsAssignment.after_comm`). -/

namespace StackHeap

open Command Number Store Typing

/-- A write leaves the types of variables as they are. -/
theorem Store.Replaced.lookup_type {m m₁ : Memory} {id : Nat} {t : String} {v : Value} {f : Frame}
    (h : Replaced m id t v m₁) (hf : m.stack.frame? id = some f) (name : String) :
    (m₁.lookup id name).map Slot.type = (m.lookup id name).map Slot.type := by
  have htype := f.type_slot?_write t v name
  simp only [Memory.lookup, Memory.frame, h.frame? hf, hf, bind, Except.bind]
  cases hx : f.slot? name with
  | none =>
      rw [hx] at htype
      rw [Option.map_eq_none_iff.1 htype]
      rfl
  | some x =>
      rw [hx] at htype
      obtain ⟨y, hy, hyx⟩ := Option.map_eq_some_iff.1 htype
      rw [hy]
      exact congrArg Except.ok hyx

namespace Session

/-- The line assigns to a variable what the lexemes `side` spell: a variable, null or a literal, but
no new object. -/
structure Assigning (line target : String) (side : List Lexeme) : Prop where
  lexes : lexemes? line.toList =
    some (.ident target :: .mark .equals :: (side ++ [.mark .semicolon]))
  plain : side.head? ≠ some (.keyword .new)

/-- In either order, two lines are carried out or rejected alike, and leave the same memory. -/
structure Commute (s : Session) (line₁ line₂ : String) : Prop where
  ok_left : ((s.run line₂).1.run line₁).2.ok = (s.run line₁).2.ok
  ok_right : ((s.run line₁).1.run line₂).2.ok = (s.run line₂).2.ok
  memory : ((s.run line₁).1.run line₂).1.memory = ((s.run line₂).1.run line₁).1.memory

variable {s s' : Session} {m m' : Memory} {line line₁ line₂ target t₁ t₂ : String}
  {side side₁ side₂ : List Lexeme} {op op₁ op₂ : Operation} {e : CommandError} {id : Nat}
  {type : DeclaredType} {ls : List Lexeme}

theorem Commute.symm (h : s.Commute line₁ line₂) : s.Commute line₂ line₁ :=
  ⟨h.ok_right, h.ok_left, h.memory.symm⟩

/-! ### Plans -/

/-- **Planning sees the types of the innermost frame's variables only.** -/
theorem plan_congr (hid : m'.stack.current.id = m.stack.current.id)
    (htype : ∀ name, (m'.lookup m.stack.current.id name).map Slot.type =
      (m.lookup m.stack.current.id name).map Slot.type) (cs : List Char) :
    plan cs m' = plan cs m := by
  unfold plan
  rw [hid]
  congr 1
  funext kind
  cases kind with
  | enter name => rfl
  | leave => rfl
  | declaration => rfl
  | assignment name value =>
      have hname := htype name
      dsimp only
      cases hx : m.lookup m.stack.current.id name with
      | error e =>
          rw [hx] at hname
          cases hx' : m'.lookup m.stack.current.id name with
          | error e' =>
              rw [hx'] at hname
              cases hname
              rfl
          | ok x' =>
              rw [hx'] at hname
              cases hname
      | ok x =>
          rw [hx] at hname
          obtain ⟨x', hx', ht⟩ := map_eq_ok.1 hname
          rw [hx']
          simp only [Except.mapError, bind, Except.bind, ht]

/-- What is assigned without a new object. -/
theorem Assigns.isAssignment (h : Assigns id target type side op)
    (hplain : side.head? ≠ some (.keyword .new)) :
    ∃ source, op.IsAssignment id target source ∧
      ∀ name, source = some name → side = [.ident name] := by
  cases h with
  | «variable» source => exact ⟨_, .copy source, fun name he => by rw [Option.some.inj he]⟩
  | null => exact ⟨_, .null, fun name he => by cases he⟩
  | construct _ _ => exact absurd rfl hplain
  | literal _ _ _ => exact ⟨_, .literal _ _, fun name he => by cases he⟩

theorem Assigning.isAssignment (h : Assigning line target side)
    (hp : plan line.toList m = .ok op) :
    ∃ source, op.IsAssignment m.stack.current.id target source ∧
      ∀ name, source = some name → side = [.ident name] := by
  obtain ⟨x, -, ha⟩ := assigns_of_plan (lexemes?_eq_some_iff.1 h.lexes) hp
  exact ha.isAssignment h.plain

/-! ### Runs -/

/-- A line that assigns leaves the plans of other lines as they are. -/
theorem plan_run_assigning (hs : s.memory.Sound []) (h : Assigning line target side)
    (cs : List Char) : plan cs (s.run line).1.memory = plan cs s.memory := by
  cases hp : plan line.toList s.memory with
  | error e => rw [run_of_plan_error s line hp]
  | ok op =>
      obtain ⟨source, hop, -⟩ := h.isAssignment hp
      have hf := hs.stack.frame?_current
      rw [memory_of_plan s line hp]
      by_cases he : op.error? s.memory = none
      · obtain ⟨v, hv⟩ := hop.exists_supplies hs hf he
        have hr := (hop.replaced hs hf hv).2
        refine plan_congr ?_ (hr.lookup_type hf) cs
        rw [hr.stack]
        exact Stack.id_current_update (g := (·.write target v)) (fun _ => rfl) _ _
      · rw [hop.after_of_error hs he]

/-- A line that is rejected for itself can be left out. -/
theorem Commute.of_plan_error (hs : s.memory.Sound []) (h₂ : Assigning line₂ t₂ side₂)
    (hp : plan line₁.toList s.memory = .error e) : s.Commute line₁ line₂ := by
  have hp' := hp
  rw [← plan_run_assigning hs h₂] at hp'
  have hfirst := run_of_plan_error s line₁ hp
  have hsecond := run_of_plan_error (s.run line₂).1 line₁ hp'
  have hsame : (s.run line₁).1.memory = s.memory := by rw [hfirst]
  have hmemory := memory_run_congr hsame line₂
  exact ⟨by rw [hfirst, hsecond], congrArg (·.ok) (outcome_congr hsame line₂),
    by rw [hmemory, hsecond]⟩

/-- A line that stands for one operation in two sessions, which is carried out in both or in none. -/
theorem ok_eq_of_plan (h : plan line.toList s.memory = .ok op)
    (h' : plan line.toList s'.memory = .ok op)
    (hiff : op.error? s'.memory = none ↔ op.error? s.memory = none) :
    (s'.run line).2.ok = (s.run line).2.ok := by
  rw [Bool.eq_iff_iff, run_ok_iff, run_ok_iff]
  simp only [h, h', Except.ok.injEq, exists_eq_left', hiff]

end Session

open Session

/-- **Independent assignments commute.**  In every session in which at most `2 ^ 53` addresses were
handed out, two lines that assign variables, null or literals to different variables, neither of
which assigns the variable that the other changes, can change places: each is carried out or rejected
as in the other order, and the whole memory is the same in the end. -/
theorem independent_assignments_commute {s : Session} (hr : s.Reachable)
    (hu : s.memory.addresses.used ≤ pow2 53) {line₁ line₂ t₁ t₂ : String}
    {side₁ side₂ : List Lexeme} (h₁ : Assigning line₁ t₁ side₁) (h₂ : Assigning line₂ t₂ side₂)
    (hne : t₁ ≠ t₂) (hside₁ : side₁ ≠ [.ident t₂]) (hside₂ : side₂ ≠ [.ident t₁]) :
    s.Commute line₁ line₂ := by
  have hs := hr.sound hu
  cases hp₁ : plan line₁.toList s.memory with
  | error e => exact .of_plan_error hs h₂ hp₁
  | ok op₁ =>
      cases hp₂ : plan line₂.toList s.memory with
      | error e => exact (Commute.of_plan_error hs h₁ hp₂).symm
      | ok op₂ =>
          obtain ⟨source₁, hop₁, hsource₁⟩ := h₁.isAssignment hp₁
          obtain ⟨source₂, hop₂, hsource₂⟩ := h₂.isAssignment hp₂
          have hother₁ : source₁ ≠ some t₂ := fun he => hside₁ (hsource₁ t₂ he)
          have hother₂ : source₂ ≠ some t₁ := fun he => hside₂ (hsource₂ t₁ he)
          have hf := hs.stack.frame?_current
          have hafter₁ := memory_of_plan s line₁ hp₁
          have hafter₂ := memory_of_plan s line₂ hp₂
          -- Each line stands for its operation after the other, too.
          have hp₁₂ := (plan_run_assigning hs h₁ line₂.toList).trans hp₂
          have hp₂₁ := (plan_run_assigning hs h₂ line₁.toList).trans hp₁
          constructor
          · refine ok_eq_of_plan hp₁ hp₂₁ ?_
            rw [hafter₂]
            exact hop₁.error?_after_eq_none_iff hop₂ hne hother₁ hs hf
          · refine ok_eq_of_plan hp₂ hp₁₂ ?_
            rw [hafter₁]
            exact hop₂.error?_after_eq_none_iff hop₁ hne.symm hother₂ hs hf
          · rw [memory_of_plan _ line₂ hp₁₂, memory_of_plan _ line₁ hp₂₁, hafter₁, hafter₂]
            exact hop₁.after_comm hop₂ hne hother₁ hother₂ hs hf

/-- Two arrays share an object that nothing else refers to, so it is collected with whichever of them
goes last. -/
theorem independent_assignments_commute_shared :
    let s := (Session.new {}).runAll ["Cat a = (age=3);", "Cat b = (age=5);",
      "Cat[] xs = \x7ba\x7d;", "Cat[] ys = \x7ba\x7d;", "Cat[] zs = \x7bb\x7d;", "a = null;"]
    s.Commute "xs = null;" "ys = zs;" ∧ (s.run "xs = null;").2.ok = true ∧
      (s.run "ys = zs;").2.ok = true ∧ s.memory.heap.entries.length = 5 ∧
      ((s.run "xs = null;").1.run "ys = zs;").1.memory.heap.entries.length = 2 := by
  intro s
  have hxs : Assigning "xs = null;" "xs" [.keyword .null] := ⟨by decide +kernel, by decide⟩
  have hys : Assigning "ys = zs;" "ys" [.ident "zs"] := ⟨by decide +kernel, by decide⟩
  refine ⟨?_, by decide +kernel, by decide +kernel, by decide +kernel, by decide +kernel⟩
  exact independent_assignments_commute ⟨{}, _, rfl⟩ (by decide +kernel) hxs hys (by decide)
    (by decide) (by decide)

end StackHeap
