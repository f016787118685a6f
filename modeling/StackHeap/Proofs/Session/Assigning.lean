import StackHeap.Proofs.Command.Sides
import StackHeap.Proofs.Session.Tokens

/-! # The grammar of assignments

`Assigns id target type ls op` says that the lexemes `ls` are a right-hand side for a variable of
the type, and that `op` is the operation that assigns it: a copy, null, a new object or a literal.

A line that assigns a right-hand side is planned exactly if the right-hand side is in this grammar
(`plan_assigning_eq_ok_iff`); a line that declares a variable with it, exactly if the whole is a
declaration (`plan_initialising_eq_ok_iff`). -/

namespace StackHeap

open Text Command Store Typing

namespace Session

/-- The lexemes of a right-hand side, and the operation that assigns it to a variable. -/
inductive Assigns (id : Nat) (target : String) (type : DeclaredType) :
    List Lexeme → Operation → Prop where
  | variable (source : String) : Assigns id target type [.ident source] (.assign id target source)
  | null : Assigns id target type [.keyword .null] (.assignNull id target)
  | construct {category : String} {attributes : List (List Lexeme)} {fields : List Field}
      (hc : Primitive.ofName? category = none) (ha : AttributesOf attributes fields) :
      Assigns id target type (.keyword .new :: .ident category :: .mark (.opening .round) ::
        (commaList attributes ++ [.mark (.closing .round)])) (.assignNew id target category fields)
  | literal {p : Primitive} {ls : List Lexeme} {v : Value} (ht : type.primitive? = some p)
      (hn : ls ≠ [.keyword .null]) (h : Assignable p ls v) :
      Assigns id target type ls (.assignLiteral id target p v)

variable {id : Nat} {target name side : String} {type : DeclaredType} {ls vs inner : List Lexeme}
  {op : Operation} {m : Memory} {fields : List Field} {cs : List Char} {d : TypedDeclaration}

/-! ### Values -/

/-- Within brackets a value goes on over any lexemes that are neither brackets nor end it. -/
theorem isValue_one_append (hv : ∀ l ∈ vs, ¬l.EndsValue ∧ ∀ depth, l.depthAfter depth = depth)
    (h : IsValue 1 ls) : IsValue 1 (vs ++ ls) := by
  induction vs with
  | nil => exact h
  | cons l vs ih =>
      obtain ⟨hl, hd⟩ := hv l List.mem_cons_self
      refine ⟨hl, fun he => by omega, ?_⟩
      rw [hd]
      exact ih fun k hk => hv k (List.mem_cons_of_mem _ hk)

theorem not_endsValue_of_attributeOf {f : Field} (h : AttributeOf ls f) :
    ∀ l ∈ ls, ¬l.EndsValue := by
  have hatoms : ∀ {ls : List Lexeme}, Atoms ls → ∀ l ∈ ls, ¬l.EndsValue := by
    rintro ls ha l hl (rfl | rfl) <;> cases ha.all _ hl
  have hident : ∀ name, ¬(Lexeme.ident name).EndsValue := by
    rintro name (h | h) <;> cases h
  cases h with
  | typed h =>
      simp only [List.forall_mem_cons]
      exact ⟨hident _, hident _, by decide, hatoms (atoms_literal h)⟩
  | inferred hp h =>
      simp only [List.forall_mem_cons]
      exact ⟨hident _, by decide, hatoms (atoms_literal h)⟩

/-- The construction of an object is a value. -/
theorem isValue_construct {category : String} {attributes : List (List Lexeme)}
    (ha : AttributesOf attributes fields) :
    IsValue 0 (.keyword .new :: .ident category :: .mark (.opening .round) ::
      (commaList attributes ++ [.mark (.closing .round)])) := by
  have hinner : IsValue 1 (commaList attributes ++ [.mark (.closing .round)]) := by
    refine isValue_one_append (fun l hl => ?_) ⟨by decide, by decide, trivial⟩
    rcases mem_commaList hl with rfl | ⟨part, hp, hl⟩
    · exact ⟨by decide, fun _ => rfl⟩
    · refine ⟨?_, depthAfter_of_isFlat ?_⟩
      · exact forall_mem_of_forall₂ ha.each (fun _ _ => not_endsValue_of_attributeOf) part hp l hl
      · exact forall_mem_of_forall₂ ha.each (fun _ _ => isFlat_of_attributeOf) part hp l hl
  simp only [IsValue, Lexeme.EndsValue, Lexeme.depthAfter, reduceCtorEq, Lexeme.mark.injEq,
    false_and, or_self, not_false_eq_true, true_and]
  exact hinner

/-- What is assigned is a value. -/
theorem Assigns.isValue (h : Assigns id target type ls op) : IsValue 0 ls ∧ ls ≠ [] := by
  cases h with
  | «variable» source => exact ⟨(atoms_singleton rfl).isValue, List.cons_ne_nil _ _⟩
  | null => exact ⟨(atoms_singleton rfl).isValue, List.cons_ne_nil _ _⟩
  | construct hc ha => exact ⟨isValue_construct ha, List.cons_ne_nil _ _⟩
  | literal ht hn h => exact ⟨(atoms_assignable h).isValue, (atoms_assignable h).ne_nil⟩

/-! ### Right-hand sides -/

/-- What a right-hand side denotes is assigned as the grammar says. -/
theorem assigns_of_denotes {s : RightSide} (hs : Denotes ls s)
    (h : assignment id target type s = .ok op) : Assigns id target type ls op := by
  cases hs with
  | «variable» name =>
      cases h
      exact .variable name
  | null =>
      cases h
      exact .null
  | @construct category inner text hlist htext =>
      simp only [assignment] at h
      split at h
      · cases h
      · next hc =>
          obtain ⟨fields, hf, rfl⟩ := map_eq_ok.1 h
          have ha := (checkObject_eq_ok_iff htext).1 (mapError_eq_ok.1 hf)
          have hassigns := @Assigns.construct id target type _ _ _ (by simpa using hc) ha
          rwa [commaList_lexemeParts] at hassigns
  | literal hv hn hc htext =>
      simp only [assignment] at h
      split at h
      · cases h
      · next p hp =>
          obtain ⟨v, hv, rfl⟩ := map_eq_ok.1 h
          exact .literal hp hn ((checkAssignable_eq_ok_iff htext).1 (mapError_eq_ok.1 hv))

/-- What is in the grammar is what a right-hand side denotes. -/
theorem denotes_of_assigns (h : Assigns id target type ls op) (hl : Lexes cs ls) :
    ∃ s, rightSide cs = .ok s ∧ assignment id target type s = .ok op := by
  cases h with
  | «variable» source => exact ⟨_, rightSide_plain hl (by simp), rfl⟩
  | null => exact ⟨_, rightSide_plain hl (by simp), rfl⟩
  | @construct category attributes fields hc ha =>
      obtain ⟨ts, hr, he⟩ := rightSide_new hl
      obtain ⟨text, hread, htext⟩ := hr.construction_complete ha.isAttributeList.1
      refine ⟨_, he.trans hread, ?_⟩
      have hobject : checkObject category text = .ok fields := by
        rw [checkObject_eq_ok_iff htext, ha.isAttributeList.2]
        exact ha
      simp only [assignment, hc, Option.isSome_none, Bool.false_eq_true, if_false, hobject]
      rfl
  | @literal p ls v ht hn h =>
      have hnew : ls.head? ≠ some (.keyword .new) := fun he =>
        ((atoms_assignable h).head? _ he).2 rfl
      have hplain : plainSide (trim cs) ls = .literal (trim cs) := by
        unfold plainSide
        split
        · exact absurd h not_assignable_ident
        · exact absurd rfl hn
        · rfl
      have hread := (checkAssignable_eq_ok_iff hl.trim).2 h
      refine ⟨_, rightSide_plain hl hnew, ?_⟩
      rw [hplain]
      simp only [assignment, ht, hread]
      rfl

/-! ### Lines -/

theorem not_startsCommand_of_declares (h : Declares ls d) : ¬StartsCommand ls := by
  intro hs
  cases h <;> cases hs

theorem plan_of_declares {cs : List Char} (h : Lexes cs ls) (hd : Declares ls d) :
    plan cs m = .ok (initialization m.stack.current.id d.name d.initializer) := by
  obtain ⟨kind, hk, halike⟩ :=
    exists_classify h (.declaration fun _ => not_startsCommand_of_declares hd)
  cases halike
  simp only [plan, bind_eq_ok, mapError_eq_ok]
  exact ⟨_, hk, bind_eq_ok.2 ⟨d, mapError_eq_ok.2 (process_of_declares h hd), rfl⟩⟩

/-- What is planned for a line that assigns is in the grammar. -/
theorem assigns_of_plan (hl : Lexes cs (.ident name :: .mark .equals :: (ls ++ [.mark .semicolon])))
    (h : plan cs m = .ok op) : ∃ x, m.lookup m.stack.current.id name = .ok x ∧
      Assigns m.stack.current.id name x.type ls op := by
  simp only [plan, bind_eq_ok, mapError_eq_ok] at h
  obtain ⟨kind, hk, h⟩ := h
  have hkind := classifies_of_classify hl hk
  generalize hw : Lexeme.ident name :: .mark .equals :: (ls ++ [.mark .semicolon]) = whole at hkind
  cases hkind with
  | enter _ => cases hw
  | leave => cases hw
  | declaration _ =>
      simp only [bind_eq_ok, mapError_eq_ok] at h
      obtain ⟨d, hd, -⟩ := h
      obtain ⟨ls', hl', hdecl⟩ := declares_of_process hd
      obtain rfl := hl'.unique hl
      cases hdecl
  | @assignment target vs text ht hne hv htext =>
      simp only [List.cons.injEq, Lexeme.ident.injEq, true_and] at hw
      obtain ⟨rfl, hw⟩ := hw
      obtain rfl := List.append_cancel_right hw
      simp only [bind_eq_ok, mapError_eq_ok] at h
      obtain ⟨x, hx, s, hs, h⟩ := h
      exact ⟨x, hx, assigns_of_denotes (denotes_of_rightSide htext hs) h⟩

/-- **A line that assigns a right-hand side is planned as the grammar says.** -/
theorem plan_assigning_eq_ok_iff (hn : IsIdentifier name) (hp : Primitive.ofName? name = none)
    (hl : Lexes side.toList ls) : plan (assigning name side).toList m = .ok op ↔
      ∃ x, m.lookup m.stack.current.id name = .ok x ∧
        Assigns m.stack.current.id name x.type ls op := by
  have hline := lexes_assigning hn hl
  refine ⟨assigns_of_plan hline, ?_⟩
  rintro ⟨x, hx, ha⟩
  obtain ⟨hv, hne⟩ := ha.isValue
  obtain ⟨kind, hk, halike⟩ := exists_classify hline (.assignment hp hne hv hl)
  obtain ⟨text, rfl, htext⟩ : ∃ text, kind = .assignment name text ∧ Lexes text ls := by
    cases halike with
    | refl => exact ⟨_, rfl, hl⟩
    | assignment h h' =>
        rw [h.unique hl] at h'
        exact ⟨_, rfl, h'⟩
  obtain ⟨s, hs, hop⟩ := denotes_of_assigns ha htext
  simp only [plan, bind_eq_ok, mapError_eq_ok]
  exact ⟨_, hk, bind_eq_ok.2 ⟨x, mapError_eq_ok.2 hx, bind_eq_ok.2 ⟨s, mapError_eq_ok.2 hs, hop⟩⟩⟩

/-- **A line that declares a variable with a right-hand side is planned as its declaration.** -/
theorem plan_initialising_eq_ok_iff {typeName : String} (ht : IsIdentifier typeName)
    (hn : IsIdentifier name) (hl : Lexes side.toList ls) :
    plan (initialising typeName name side).toList m = .ok op ↔
      ∃ d, Declares (.ident typeName :: .ident name :: .mark .equals :: (ls ++ [.mark .semicolon])) d ∧
        op = initialization m.stack.current.id d.name d.initializer := by
  have hline := lexes_initialising ht hn hl
  constructor
  · intro h
    simp only [plan, bind_eq_ok, mapError_eq_ok] at h
    obtain ⟨kind, hk, h⟩ := h
    have hkind := classifies_of_classify hline hk
    generalize hw : Lexeme.ident typeName :: .ident name :: .mark .equals ::
      (ls ++ [.mark .semicolon]) = whole at hkind
    cases hkind with
    | enter _ => cases hw
    | leave => cases hw
    | assignment _ _ _ _ => cases hw
    | declaration hd =>
        simp only [bind_eq_ok, mapError_eq_ok, return_eq_ok] at h
        obtain ⟨d, hd, rfl⟩ := h
        obtain ⟨ls', hl', hdecl⟩ := declares_of_process hd
        obtain rfl := hl'.unique hline
        exact ⟨d, hw ▸ hdecl, rfl⟩
  · rintro ⟨d, hd, rfl⟩
    exact plan_of_declares hline hd

end Session

end StackHeap
