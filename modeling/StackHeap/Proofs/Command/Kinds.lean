import StackHeap.Proofs.Command.Lines

/-! # Kinds of lines

Which lines are which kind of command, told by what their tokens are.

* **Brackets** of one kind are balanced if no part in front of the lexemes closes more of them than
  it opens, and all of them together close as many as they open (`Balanced`).  This is what the
  search for the closing bracket accepts (`nested_iff_balanced`).
* **Assigned values** hold no semicolon, and an equals sign only where the lexemes in front of it
  leave a bracket open (`IsAssigned`).  This is what the reader of values accepts
  (`isAssigned_iff`).
* **Declarations** never start as another kind of line, so a line that does is accepted by at most
  one of the readers (`Shape.not_startsCommand`).

The kinds are exact: a line enters a frame, leaves one or assigns if and only if it has the tokens of
such a line, and a line that is refused is no declaration either (`classify_exact`). -/

namespace StackHeap.Command

open Text Typing

variable {cs : List Char} {ts taken tail : List Token} {ls vs inner : List Lexeme}
  {b : Bracket} {name target : String} {kind : LineKind}

/-! ### Balanced brackets -/

/-- Brackets of one kind match: none is closed that was not opened before, and none stays open. -/
structure Balanced (b : Bracket) (ls : List Lexeme) : Prop where
  closed_le : ∀ front, front <+: ls →
    front.count (.mark (.closing b)) ≤ front.count (.mark (.opening b))
  closed_eq : ls.count (.mark (.closing b)) = ls.count (.mark (.opening b))

/-- A part in front of some lexemes is empty, or is the first one and a part in front of the others. -/
theorem forall_prefix_cons {l : Lexeme} {p : List Lexeme → Prop} :
    (∀ front, front <+: l :: ls → p front) ↔ p [] ∧ ∀ front, front <+: ls → p (l :: front) := by
  constructor
  · exact fun h => ⟨h [] List.nil_prefix, fun front hf => h _ (List.cons_prefix_cons.2 ⟨rfl, hf⟩)⟩
  · rintro ⟨hnil, hcons⟩ front hf
    rcases List.prefix_cons_iff.1 hf with rfl | ⟨front, rfl, hmore⟩
    · exact hnil
    · exact hcons front hmore

/-- The search for a closing bracket counts the brackets that are open, `depth` of them at first. -/
theorem nested_iff_counts (b : Bracket) (depth : Nat) (ls : List Lexeme) :
    Nested b depth ls ↔
      (∀ front, front <+: ls →
        front.count (.mark (.closing b)) ≤ depth + front.count (.mark (.opening b))) ∧
      ls.count (.mark (.closing b)) = depth + ls.count (.mark (.opening b)) := by
  induction ls generalizing depth with
  | nil =>
      simp only [Nested, List.prefix_nil, forall_eq, List.count_nil]
      omega
  | cons l ls ih =>
      simp only [forall_prefix_cons, List.count_nil, Nat.zero_le, true_and, Nested]
      split
      · next hl =>
          subst hl
          simp only [ih, List.count_cons_self, List.count_cons_of_ne, ne_eq, Lexeme.mark.injEq,
            reduceCtorEq, not_false_eq_true]
          exact and_congr (forall₂_congr fun front _ => by omega) (by omega)
      · split
        · next hl =>
            subst hl
            simp only [ih, List.count_cons_self, List.count_cons_of_ne, ne_eq, Lexeme.mark.injEq,
              reduceCtorEq, not_false_eq_true]
            constructor
            · rintro ⟨hd, hle, heq⟩
              exact ⟨fun front hf => by have := hle front hf; omega, by omega⟩
            · rintro ⟨hle, heq⟩
              -- The bracket alone closes one, so one must have been open.
              have hd := hle [] List.nil_prefix
              rw [List.count_nil, List.count_nil] at hd
              exact ⟨by omega, fun front hf => by have := hle front hf; omega, by omega⟩
        · next ho hc =>
            simp only [ih, List.count_cons_of_ne ho, List.count_cons_of_ne hc]

theorem nested_iff_balanced : Nested b 0 ls ↔ Balanced b ls := by
  simp only [nested_iff_counts, Nat.zero_add]
  exact ⟨fun h => ⟨h.1, h.2⟩, fun h => ⟨h.closed_le, h.closed_eq⟩⟩

/-! ### Assigned values -/

/-- The lexemes of a value that is assigned.  All kinds of brackets count alike for the depth of an
equals sign, and a closing one that nothing matches does not count. -/
structure IsAssigned (vs : List Lexeme) : Prop where
  ne_nil : vs ≠ []
  undivided : .mark .semicolon ∉ vs
  unchained : ∀ front back, vs = front ++ .mark .equals :: back →
    front.foldl Lexeme.depthAfter 0 ≠ 0

theorem isValue_iff {depth : Nat} : IsValue depth vs ↔
    .finish ∉ vs ∧ .mark .semicolon ∉ vs ∧
      ∀ front back, vs = front ++ .mark .equals :: back → front.foldl Lexeme.depthAfter depth ≠ 0 := by
  induction vs generalizing depth with
  | nil => simp [IsValue]
  | cons l vs ih =>
      rw [IsValue, ih, List.mem_cons, List.mem_cons, not_or, not_or, Lexeme.EndsValue, not_or]
      constructor
      · rintro ⟨⟨hf, hs⟩, hq, hfs, hss, hqs⟩
        refine ⟨⟨Ne.symm hf, hfs⟩, ⟨Ne.symm hs, hss⟩, fun front back he => ?_⟩
        cases front with
        | nil => exact fun hd => hq ⟨(List.cons.inj he).1, hd⟩
        | cons k front =>
            obtain ⟨rfl, hvs⟩ := List.cons.inj he
            exact hqs front back hvs
      · rintro ⟨⟨hf, hfs⟩, ⟨hs, hss⟩, hq⟩
        refine ⟨⟨Ne.symm hf, Ne.symm hs⟩, ?_, hfs, hss, fun front back he => ?_⟩
        · rintro ⟨rfl, hd⟩
          exact hq [] vs rfl hd
        · exact hq (l :: front) back (by rw [he, List.cons_append])

theorem isAssigned_iff (hf : .finish ∉ vs) : IsAssigned vs ↔ vs ≠ [] ∧ IsValue 0 vs := by
  rw [isValue_iff]
  exact ⟨fun h => ⟨h.ne_nil, hf, h.undivided, h.unchained⟩,
    fun ⟨hne, _, hs, hq⟩ => ⟨hne, hs, hq⟩⟩

/-- The tokens of a line that assigns a variable: the target, an equals sign, the value `taken` and
a semicolon. -/
structure Assigns (cs : List Char) (target : String) (taken : List Token) : Prop where
  tokens : ∃ head tail, tokenize cs = .ok (head ++ taken ++ tail) ∧
    head.map Token.lexeme = [.ident target, .mark .equals] ∧
    tail.map Token.lexeme = [.mark .semicolon, .finish]
  not_primitive : Primitive.ofName? target = none
  isAssigned : IsAssigned (taken.map Token.lexeme)

/-- The lexemes that are left, if the last token before the end is a semicolon. -/
theorem Remain.eq_concat_semicolon (h : Remain cs (taken ++ tail) ls)
    (ht : tail.map Token.lexeme = [.mark .semicolon, .finish]) :
    ls = taken.map Token.lexeme ++ [.mark .semicolon] := by
  refine (List.append_left_inj [.finish]).1 ?_
  rw [← h.lexemes, List.map_append, ht, List.append_assoc]
  rfl

theorem spanOf?_eq_some_iff {span : Span} : spanOf? taken = some span ↔
    ∃ first last, taken.head? = some first ∧ taken.getLast? = some last ∧
      span = ⟨first.span.start, last.span.stop⟩ := by
  simp only [spanOf?, Option.bind_eq_bind, Option.bind_eq_some_iff, Option.pure_def,
    Option.some.injEq, exists_and_left, eq_comm (b := span)]

theorem Remain.assignmentLine_eq_ok_iff (h : Remain cs ts ls) :
    assignmentLine cs target ts = .ok kind ↔
      ∃ taken tail span, ts = taken ++ tail ∧ tail.map Token.lexeme = [.mark .semicolon, .finish] ∧
        IsAssigned (taken.map Token.lexeme) ∧ spanOf? taken = some span ∧
        kind = .assignment target (slice cs span) := by
  unfold assignmentLine
  constructor
  · intro hk
    obtain ⟨⟨taken, span, rest⟩, hv, hk⟩ := bind_eq_ok.1 hk
    obtain ⟨u, hend, he⟩ := bind_eq_ok.1 hk
    cases he
    obtain ⟨hvt, hs⟩ := value_eq_ok_iff.1 hv
    obtain ⟨rfl, hvalue, -⟩ := valueTokens_eq_ok_iff.1 hvt
    obtain ⟨ls', rfl, hrest⟩ := h.of_append hvalue.ne_finish
    obtain rfl := hrest.lineEnd_eq_ok_iff.1 hend
    refine ⟨taken, rest, span, rfl, hrest.lexemes, ?_, hs, rfl⟩
    refine (isAssigned_iff hvalue.ne_finish).2 ⟨fun hnil => ?_, hvalue⟩
    obtain rfl := List.map_eq_nil_iff.1 hnil
    cases hs
  · rintro ⟨taken, tail, span, rfl, htail, ha, hs, rfl⟩
    obtain rfl := h.eq_concat_semicolon htail
    have hf : .finish ∉ taken.map Token.lexeme := fun hmem =>
      h.ne_finish _ (List.mem_append_left _ hmem) rfl
    obtain ⟨ls', hls, hrest⟩ := h.of_append hf
    obtain rfl := List.append_cancel_left hls
    have hvalue : valueTokens 0 (taken ++ tail) = .ok (taken, tail) := by
      refine valueTokens_eq_ok_iff.2 ⟨rfl, ((isAssigned_iff hf).1 ha).2, fun t ht => .inr ?_⟩
      cases tail with
      | nil => cases ht
      | cons u tail =>
          obtain rfl : u = t := Option.some.inj ht
          exact (List.cons.inj htail).1
    exact bind_eq_ok.2 ⟨_, value_eq_ok_iff.2 ⟨hvalue, hs⟩,
      bind_eq_ok.2 ⟨(), hrest.lineEnd_eq_ok_iff.2 rfl, rfl⟩⟩

/-! ### Exactness -/

variable {value : List Char} {d : Declaration}

theorem Shape.not_startsCommand (shape : Shape) : ¬StartsCommand shape.lexemes := by
  cases shape <;> rintro ⟨⟩

/-- A declaration that is accepted does not start as another kind of line. -/
theorem not_startsCommand_of_checkDeclaration (h : Lexes cs ls) (hd : checkDeclaration cs = .ok d) :
    ¬StartsCommand ls := by
  obtain ⟨shape, hshape, -, -⟩ := checkDeclaration_sound hd
  rw [h.unique hshape]
  exact shape.not_startsCommand

/-- A line that is called anything but a declaration can be read, and starts as another kind. -/
theorem startsCommand_of_classify (hk : classify cs ≠ .ok .declaration) :
    ∃ ls, Lexes cs ls ∧ StartsCommand ls := by
  cases hts : readTokens cs with
  | error e =>
      refine absurd ?_ hk
      unfold classify
      rw [hts]
      cases terminated cs <;> rfl
  | ok ts =>
      obtain ⟨ls, hl, hr⟩ := exists_remain_of_readTokens hts
      refine ⟨ls, hl, by_contra fun hs => hk ?_⟩
      obtain ⟨kind, hc, ha⟩ := exists_classify hl (.declaration fun _ => hs)
      cases ha
      exact hc

/-- What a line is called says what its lexemes are. -/
theorem exists_classifies (hk : classify cs = .ok kind) (hne : kind ≠ .declaration) :
    ∃ ls, Lexes cs ls ∧ Classifies ls kind := by
  have hother : classify cs ≠ .ok .declaration := by
    rw [hk]
    exact fun he => hne (Except.ok.inj he)
  obtain ⟨ls, hl, -⟩ := startsCommand_of_classify hother
  exact ⟨ls, hl, classifies_of_classify hl hk⟩

theorem classify_eq_enter_iff : classify cs = .ok (.enter name) ↔
    ∃ inner, lexemes? cs = some (.keyword .enter :: .ident name :: .mark (.opening .round) ::
      (inner ++ [.mark (.closing .round), .mark .semicolon])) ∧ Balanced .round inner := by
  simp only [lexemes?_eq_some_iff, ← nested_iff_balanced]
  constructor
  · intro hk
    obtain ⟨ls, hl, hc⟩ := exists_classifies hk (by simp)
    cases hc with
    | enter hn => exact ⟨_, hl, hn⟩
  · rintro ⟨inner, hl, hn⟩
    obtain ⟨kind, hk, ha⟩ := exists_classify hl (.enter hn)
    cases ha
    exact hk

theorem classify_eq_leave_iff : classify cs = .ok .leave ↔
    lexemes? cs = some [.keyword .leave, .mark .semicolon] := by
  rw [lexemes?_eq_some_iff]
  constructor
  · intro hk
    obtain ⟨ls, hl, hc⟩ := exists_classifies hk (by simp)
    cases hc
    exact hl
  · intro hl
    obtain ⟨kind, hk, ha⟩ := exists_classify hl .leave
    cases ha
    exact hk

theorem classify_eq_assignment_iff : classify cs = .ok (.assignment target value) ↔
    ∃ taken first last, Assigns cs target taken ∧ taken.head? = some first ∧
      taken.getLast? = some last ∧ value = slice cs ⟨first.span.start, last.span.stop⟩ := by
  constructor
  · intro hk
    obtain ⟨ls, hl, hc⟩ := exists_classifies hk (by simp)
    cases hc with
    | assignment ht hne hv htext =>
        obtain ⟨ts, hts, hr⟩ := hl.exists_readTokens
        rw [hl.classify_eq (by simp [List.getLast?_cons]) hts, hr.classifyTokens_eq_assignmentLine ht,
          hr.tail.tail.assignmentLine_eq_ok_iff] at hk
        obtain ⟨taken, tail, span, hrest, htail, ha, hs, he⟩ := hk
        obtain ⟨first, last, hfirst, hlast, rfl⟩ := spanOf?_eq_some_iff.1 hs
        cases he
        refine ⟨taken, first, last, ⟨⟨ts.take 2, tail, ?_, ?_, htail⟩, ht, ha⟩, hfirst, hlast, rfl⟩
        · rw [mapError_eq_ok.1 hts, List.append_assoc, ← hrest, ← List.drop_one, ← List.drop_one,
            List.drop_drop, List.take_append_drop]
        · rw [List.map_take, hr.lexemes]
          rfl
  · rintro ⟨taken, first, last, ⟨⟨head, tail, htokens, hhead, htail⟩, ht, ha⟩, hfirst, hlast, rfl⟩
    have hts : readTokens cs = .ok (head ++ taken ++ tail) := mapError_eq_ok.2 htokens
    obtain ⟨ls, hl, hr⟩ := exists_remain_of_readTokens hts
    obtain rfl := hr.eq_concat_semicolon htail
    rw [List.map_append, hhead] at hl hr
    rw [hl.classify_eq List.getLast?_concat hts, hr.classifyTokens_eq_assignmentLine ht]
    refine hr.tail.tail.assignmentLine_eq_ok_iff.2 ⟨taken, tail, _, ?_, htail, ha,
      spanOf?_eq_some_iff.2 ⟨first, last, hfirst, hlast, rfl⟩, rfl⟩
    obtain ⟨t, u, rfl⟩ := List.length_eq_two.1 (by simpa using congrArg List.length hhead)
    rfl

/-- **The kind of a line is exact.** -/
theorem classify_exact (cs : List Char) :
    (∀ name, classify cs = .ok (.enter name) ↔
      ∃ inner, lexemes? cs = some (.keyword .enter :: .ident name :: .mark (.opening .round) ::
        (inner ++ [.mark (.closing .round), .mark .semicolon])) ∧ Balanced .round inner) ∧
    (classify cs = .ok .leave ↔ lexemes? cs = some [.keyword .leave, .mark .semicolon]) ∧
    (∀ target value, classify cs = .ok (.assignment target value) ↔
      ∃ taken first last, Assigns cs target taken ∧ taken.head? = some first ∧
        taken.getLast? = some last ∧ value = slice cs ⟨first.span.start, last.span.stop⟩) ∧
    (∀ kind, classify cs = .ok kind → kind ≠ .declaration → ∀ d, checkDeclaration cs ≠ .ok d) ∧
    (∀ e, classify cs = .error e → (∃ ls, lexemes? cs = some ls ∧ StartsCommand ls) ∧
      ∀ d, checkDeclaration cs ≠ .ok d) := by
  -- A line that starts as another kind is no declaration.
  have hreject : classify cs ≠ .ok .declaration → ∀ d, checkDeclaration cs ≠ .ok d := by
    intro hk d hd
    obtain ⟨ls, hl, hs⟩ := startsCommand_of_classify hk
    exact not_startsCommand_of_checkDeclaration hl hd hs
  refine ⟨fun _ => classify_eq_enter_iff, classify_eq_leave_iff,
    fun _ _ => classify_eq_assignment_iff, ?_, ?_⟩
  · intro kind hk hne
    refine hreject ?_
    rw [hk]
    exact fun he => hne (Except.ok.inj he)
  · intro e he
    have hk : classify cs ≠ .ok .declaration := by
      rw [he]
      exact fun h => by cases h
    obtain ⟨ls, hl, hs⟩ := startsCommand_of_classify hk
    exact ⟨⟨ls, lexemes?_eq_some_iff.2 hl, hs⟩, hreject hk⟩

/-- Unmatched brackets of different kinds do not divide a value, a second equals sign does. -/
theorem classify_exact_brackets :
    classify "x = ) \x7b a = 1 ] ;".toList = .ok (.assignment "x" ") \x7b a = 1 ]".toList) ∧
    (∀ d, checkDeclaration "x = ) \x7b a = 1 ] ;".toList ≠ .ok d) ∧
    classify "x = ) a = 1;".toList = .error (.chainedAssignment ⟨8, 9⟩) ∧
    ∀ d, checkDeclaration "x = ) a = 1;".toList ≠ .ok d := by
  have hk : classify "x = ) \x7b a = 1 ] ;".toList = .ok (.assignment "x" ") \x7b a = 1 ]".toList) := by
    decide +kernel
  have he : classify "x = ) a = 1;".toList = .error (.chainedAssignment ⟨8, 9⟩) := by
    decide +kernel
  obtain ⟨-, -, -, hreject, -⟩ := classify_exact "x = ) \x7b a = 1 ] ;".toList
  obtain ⟨-, -, -, -, herror⟩ := classify_exact "x = ) a = 1;".toList
  exact ⟨hk, hreject _ hk (by simp), he, (herror _ he).2⟩

end StackHeap.Command
