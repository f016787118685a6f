import StackHeap.Proofs.Session.Invariants
import StackHeap.Proofs.Typing.Grammar

/-! # Only the tokens of a line matter

Two lines of the same tokens are planned alike: whatever the blanks between their tokens and the
escapes inside their quotes, they stand for one operation or for none (`plan_eq_ok_iff`).  What a
session does with them is then the same, but for the words of an error, which may quote the line
and name places in it (`run_agrees_of_tokens`).

The texts that a command cuts out of its line have the same lexemes in both lines, and all that is
asked of such a text is settled by its lexemes. -/

namespace StackHeap

open Text Command Store Typing

namespace Session

variable {cs cs' : List Char} {ls : List Lexeme} {m : Memory} {op : Operation}

/-! ### Plans of lines with the same lexemes -/

/-- Right-hand sides that differ in spelling are assigned alike. -/
theorem assignment_of_alike {id : Nat} {target : String} {type : DeclaredType}
    {side side' : RightSide} (hs : side.Alike side')
    (h : assignment id target type side = .ok op) : assignment id target type side' = .ok op := by
  cases hs with
  | refl => exact h
  | @construct category inner text text' htext htext' =>
      unfold assignment at h ⊢
      dsimp only at h ⊢
      split at h
      · cases h
      · next hc =>
          obtain ⟨fields, hf, rfl⟩ := map_eq_ok.1 h
          have hf' : checkObject category text' = .ok fields :=
            (checkObject_eq_ok_iff htext').2 ((checkObject_eq_ok_iff htext).1 (mapError_eq_ok.1 hf))
          rw [if_neg hc, hf']
          rfl
  | @literal ls text text' htext htext' =>
      unfold assignment at h ⊢
      dsimp only at h ⊢
      cases hp : type.primitive? with
      | none =>
          rw [hp] at h
          cases h
      | some p =>
          rw [hp] at h
          obtain ⟨v, hv, rfl⟩ := map_eq_ok.1 h
          have hv' := (checkAssignable_eq_ok_iff htext').2
            ((checkAssignable_eq_ok_iff htext).1 (mapError_eq_ok.1 hv))
          dsimp only
          rw [hv']
          rfl

theorem plan_of_lexes (h : Lexes cs ls) (h' : Lexes cs' ls) (hp : plan cs m = .ok op) :
    plan cs' m = .ok op := by
  simp only [plan, bind_eq_ok, mapError_eq_ok] at hp ⊢
  obtain ⟨kind, hk, hp⟩ := hp
  obtain ⟨kind', hk', halike⟩ := exists_classify h' (classifies_of_classify h hk)
  refine ⟨kind', hk', ?_⟩
  cases halike with
  | refl =>
      cases kind with
      | enter name => exact hp
      | leave => exact hp
      | assignment target value => exact hp
      | declaration =>
          simp only [bind_eq_ok, mapError_eq_ok] at hp ⊢
          obtain ⟨d, hd, hp⟩ := hp
          obtain ⟨ls', hl, hdecl⟩ := declares_of_process hd
          obtain rfl := hl.unique h
          exact ⟨d, process_of_declares h' hdecl, hp⟩
  | @assignment target vs text text' htext htext' =>
      simp only [bind_eq_ok, mapError_eq_ok] at hp ⊢
      obtain ⟨t, ht, side, hside, hp⟩ := hp
      obtain ⟨side', hside', hsides⟩ := exists_rightSide htext' (denotes_of_rightSide htext hside)
      exact ⟨t, ht, side', hside', assignment_of_alike hsides hp⟩

/-- **Lines of the same lexemes are planned alike.** -/
theorem plan_eq_ok_iff (h : Lexes cs ls) (h' : Lexes cs' ls) :
    plan cs m = .ok op ↔ plan cs' m = .ok op :=
  ⟨plan_of_lexes h h', plan_of_lexes h' h⟩

end Session

/-! ### Runs of lines with the same tokens -/

/-- **Only the tokens of a line matter.**  In any session, two lines of the same tokens up to their
places are both carried out or both rejected, and leave the same memory; if they are carried out,
the same is told of both. -/
theorem run_agrees_of_tokens (s : Session) (line line' : String) (ls : List Lexeme)
    (h : (tokenize line.toList).map (List.map Token.lexeme) = .ok ls)
    (h' : (tokenize line'.toList).map (List.map Token.lexeme) = .ok ls) :
    (s.run line).2.ok = (s.run line').2.ok ∧
    (s.run line).1.memory = (s.run line').1.memory ∧
    ((s.run line).2.ok = true → (s.run line).2.message = (s.run line').2.message) := by
  obtain ⟨ts, hts, rfl⟩ := map_eq_ok.1 h
  obtain ⟨ts', hts', hsame⟩ := map_eq_ok.1 h'
  obtain ⟨ls, hl, hmap⟩ := lexes_of_tokensFrom hts
  obtain ⟨ls', hl', hmap'⟩ := lexes_of_tokensFrom hts'
  obtain rfl : ls' = ls := by
    rw [hmap, hmap'] at hsame
    exact List.append_cancel_right hsame
  cases hp : Session.plan line.toList s.memory with
  | ok op =>
      have hexec := Session.execute_of_plan_ok hp
      have hexec' := Session.execute_of_plan_ok ((Session.plan_eq_ok_iff hl hl').1 hp)
      have hrun : (s.run line).2 = (s.run line').2 ∧
          (s.run line).1.memory = (s.run line').1.memory := by
        simp only [Session.run, hexec, hexec', and_self]
      exact ⟨congrArg (·.ok) hrun.1, hrun.2, fun _ => congrArg (·.message) hrun.1⟩
  | error e =>
      cases hp' : Session.plan line'.toList s.memory with
      | ok op =>
          rw [(Session.plan_eq_ok_iff hl hl').2 hp'] at hp
          cases hp
      | error e' =>
          rw [Session.run_of_plan_error s line hp, Session.run_of_plan_error s line' hp']
          exact ⟨rfl, rfl, fun hok => by cases hok⟩

/-- An array of texts in two spellings: blanks between the tokens, and a tab as an escape and as it
is. -/
theorem run_agrees_of_tokens_respelled :
    ((Session.new {}).run "String[] x = \x7b\"a,\\t\", \"\x7d\"\x7d;").1.memory =
      ((Session.new {}).run " String [ ]x= \x7b\"a,\t\",\"\x7d\" \x7d;\n").1.memory ∧
    ((Session.new {}).run "String[] x = \x7b\"a,\\t\", \"\x7d\"\x7d;").2.ok = true := by
  have hagree := run_agrees_of_tokens (Session.new {})
    "String[] x = \x7b\"a,\\t\", \"\x7d\"\x7d;"
    " String [ ]x= \x7b\"a,\t\",\"\x7d\" \x7d;\n"
    [.ident "String", .mark (.opening .square), .mark (.closing .square), .ident "x",
      .mark .equals, .mark (.opening .curly), .stringLiteral "a,\t", .mark .comma,
      .stringLiteral "\x7d", .mark (.closing .curly), .mark .semicolon, .finish]
    (by decide +kernel) (by decide +kernel)
  exact ⟨hagree.2.1, by decide +kernel⟩

end StackHeap
