import StackHeap.Proofs.Command.Readers

/-! # Lines and lexemes

Which shape a line has is decided by its lexemes alone.

* **Declarations.**  A line is a declaration of a `Shape`, whose parts are lexemes, exactly if its
  lexemes are those of the shape and the parts are proper (`checkDeclaration_sound`,
  `checkDeclaration_complete`).
* **Kinds of lines.**  The lexemes settle which kind a line is, and the value of an assignment has
  the lexemes between the equals sign and the semicolon (`classifies_of_classify`,
  `exists_classify`).
* **Right-hand sides.**  The same goes for what a right-hand side denotes (`denotes_of_rightSide`,
  `exists_rightSide`). -/

namespace StackHeap.Command

open Text Typing

/-! ### Shapes of declarations -/

/-- The parts of a declaration, as lexemes. -/
inductive Shape where
  | scalar (typeName name : String) (value : List Lexeme)
  | object (typeName name : String) (constructor? : Option String) (attributes : List Lexeme)
  | array (elementType name : String) (elements : List Lexeme)

/-- The word `new` and the name of a constructor, if there is one. -/
def constructorLexemes (constructor? : Option String) : List Lexeme :=
  constructor?.toList.flatMap fun c => [.keyword .new, .ident c]

namespace Shape

/-- The lexemes of a line of the shape. -/
def lexemes : Shape → List Lexeme
  | scalar typeName name value =>
    .ident typeName :: .ident name :: .mark .equals :: (value ++ [.mark .semicolon])
  | object typeName name constructor? attributes =>
    .ident typeName :: .ident name :: .mark .equals :: (constructorLexemes constructor? ++
      .mark (.opening .round) :: (attributes ++ [.mark (.closing .round), .mark .semicolon]))
  | array elementType name elements =>
    .ident elementType :: .mark (.opening .square) :: .mark (.closing .square) :: .ident name ::
      .mark .equals :: .mark (.opening .curly) ::
        (elements ++ [.mark (.closing .curly), .mark .semicolon])

/-- What is asked of the parts.  A value that starts with a round bracket or `new` would be read as
an object. -/
inductive Proper : Shape → Prop where
  | scalar {typeName name : String} {vs : List Lexeme} (hv : IsValue 0 vs) (hne : vs ≠ [])
      (hs : ∀ l ∈ vs.head?, l ≠ .mark (.opening .round) ∧ l ≠ .keyword .new)
      (hc : typeName = "char" → ∃ s c, vs = [.charLiteral s] ∧ s.toList = [c]) :
      Proper (scalar typeName name vs)
  | object {typeName name : String} {constructor? : Option String} {inner : List Lexeme}
      (ha : IsAttributeList inner) : Proper (object typeName name constructor? inner)
  | array {typeName name : String} {inner : List Lexeme} (hn : Nested .curly 0 inner) (hne : inner ≠ [])
      (he : ∀ part ∈ lexemeParts 0 inner, part ≠ []) : Proper (array typeName name inner)

/-- The declaration has the parts, as texts. -/
inductive Written : Shape → Declaration → Prop where
  | scalar {typeName name : String} {vs : List Lexeme} {text : List Char} (h : Lexes text vs) :
      Written (scalar typeName name vs) (.scalar typeName name text)
  | object {typeName name : String} {constructor? : Option String} {inner : List Lexeme}
      {text : List Char} (h : Lexes text inner) :
      Written (object typeName name constructor? inner) (.object typeName name constructor? text)
  | array {typeName name : String} {inner : List Lexeme} {text : List Char}
      (h : Lexes text inner) : Written (array typeName name inner) (.array typeName name text)

theorem getLast?_lexemes (shape : Shape) : shape.lexemes.getLast? = some (.mark .semicolon) := by
  cases shape with
  | scalar typeName name value => simp [lexemes, List.getLast?_cons]
  | object typeName name constructor? attributes => simp [lexemes, List.getLast?_cons]
  | array elementType name elements => simp [lexemes, List.getLast?_cons]

end Shape

variable {cs text : List Char} {ts taken rest : List Token} {ls vs inner : List Lexeme}
  {typeName name : String} {constructor? : Option String} {d : Declaration}

/-! ### Objects -/

/-- The constructor behind the equals sign, if `new` stands there. -/
def constructorHead (ts : List Token) : Except SyntaxError (Option String × List Token) :=
  if (peek ts).lexeme = .keyword .new then
    (identifier "a constructor name after 'new'" ts.tail).map fun r => (some r.1, r.2)
  else .ok (none, ts)

theorem objectBody_eq (cs : List Char) (typeName name : String) (ts : List Token) :
    objectBody cs typeName name ts = (do
      let (constructor?, ts) ← constructorHead ts
      let (attributes, ts) ← attributeList cs ts
      lineEnd ts
      .ok (.object typeName name constructor? attributes)) := by
  unfold objectBody constructorHead
  dsimp only
  split <;> rfl

namespace Remain

theorem constructorHead_sound (h : Remain cs ts ls)
    (hc : constructorHead ts = .ok (constructor?, rest)) :
    ∃ ls', ls = constructorLexemes constructor? ++ ls' ∧ Remain cs rest ls' := by
  unfold constructorHead at hc
  split at hc
  · next hp =>
      obtain ⟨ls1, rfl⟩ := (h.peek_eq_iff (by simp)).1 hp
      obtain ⟨⟨c, ts2⟩, hi, he⟩ := map_eq_ok.1 hc
      cases he
      obtain ⟨⟨ls2, rfl⟩, rfl⟩ := h.tail.identifier_eq_ok_iff.1 hi
      exact ⟨ls2, rfl, h.tail.tail⟩
  · cases hc
    exact ⟨ls, rfl, h⟩

theorem constructorHead_complete
    (h : Remain cs ts (constructorLexemes constructor? ++ .mark (.opening .round) :: ls)) :
    ∃ rest, constructorHead ts = .ok (constructor?, rest) ∧
      Remain cs rest (.mark (.opening .round) :: ls) := by
  unfold constructorHead
  cases constructor? with
  | some c =>
      have h : Remain cs ts (.keyword .new :: .ident c :: .mark (.opening .round) :: ls) := h
      rw [if_pos h.peek_cons]
      exact ⟨_, map_eq_ok.2 ⟨_, h.tail.identifier_eq_ok_iff.2 ⟨⟨_, rfl⟩, rfl⟩, rfl⟩, h.tail.tail⟩
  | none =>
      have h : Remain cs ts (.mark (.opening .round) :: ls) := h
      exact ⟨ts, if_neg (by rw [h.peek_cons]; simp), h⟩

theorem objectBody_sound (h : Remain cs ts ls) (hb : objectBody cs typeName name ts = .ok d) :
    ∃ constructor? inner, ls = constructorLexemes constructor? ++ .mark (.opening .round) ::
        (inner ++ [.mark (.closing .round), .mark .semicolon]) ∧
      IsAttributeList inner ∧ Shape.Written (.object typeName name constructor? inner) d := by
  rw [objectBody_eq] at hb
  obtain ⟨⟨constructor?, ts1⟩, hc, hb⟩ := bind_eq_ok.1 hb
  obtain ⟨ls1, rfl, h1⟩ := h.constructorHead_sound hc
  obtain ⟨⟨text, ts2⟩, ha, hb⟩ := bind_eq_ok.1 hb
  obtain ⟨inner, ls2, rfl, hlist, htext, h2⟩ := h1.attributeList_sound ha
  obtain ⟨u, hend, he⟩ := bind_eq_ok.1 hb
  obtain rfl := h2.lineEnd_eq_ok_iff.1 hend
  cases he
  exact ⟨constructor?, inner, rfl, hlist, .object htext⟩

theorem objectBody_complete
    (h : Remain cs ts (constructorLexemes constructor? ++ .mark (.opening .round) ::
      (inner ++ [.mark (.closing .round), .mark .semicolon]))) (ha : IsAttributeList inner) :
    ∃ d, objectBody cs typeName name ts = .ok d ∧
      Shape.Written (.object typeName name constructor? inner) d := by
  obtain ⟨ts1, hc, h1⟩ := h.constructorHead_complete
  obtain ⟨text, ts2, hlist, htext, h2⟩ := h1.attributeList_complete ha
  refine ⟨_, ?_, .object htext⟩
  rw [objectBody_eq]
  refine bind_eq_ok.2 ⟨_, hc, bind_eq_ok.2 ⟨_, hlist, bind_eq_ok.2 ⟨(), ?_, rfl⟩⟩⟩
  exact h2.lineEnd_eq_ok_iff.2 rfl

/-! ### Arrays -/

theorem arrayBody_sound (h : Remain cs ts ls) (hb : arrayBody cs typeName name ts = .ok d) :
    ∃ inner, ls = .mark (.opening .curly) ::
        (inner ++ [.mark (.closing .curly), .mark .semicolon]) ∧
      Shape.Proper (.array typeName name inner) ∧
      Shape.Written (.array typeName name inner) d := by
  unfold arrayBody at hb
  obtain ⟨⟨span, ts'⟩, hbr, hb⟩ := bind_eq_ok.1 hb
  obtain ⟨inner, ls', rfl, hn, htext, h'⟩ := h.bracketed_sound hbr
  obtain ⟨u, hend, hb⟩ := bind_eq_ok.1 hb
  obtain rfl := h'.lineEnd_eq_ok_iff.1 hend
  dsimp only at hb
  split at hb
  · cases hb
  · next hne =>
      obtain ⟨u', hc, he⟩ := bind_eq_ok.1 hb
      cases he
      refine ⟨inner, rfl, .array hn (fun he => hne (htext.trim_eq_nil_iff.2 he)) ?_,
        .array htext.trim⟩
      exact (checkElements_eq_ok_iff (lexes_splitTopLevel htext.trim) 1).1 hc

theorem arrayBody_complete (h : Remain cs ts (.mark (.opening .curly) ::
      (inner ++ [.mark (.closing .curly), .mark .semicolon])))
    (hn : Nested .curly 0 inner) (hne : inner ≠ []) (he : ∀ part ∈ lexemeParts 0 inner, part ≠ []) :
    ∃ d, arrayBody cs typeName name ts = .ok d ∧
      Shape.Written (.array typeName name inner) d := by
  obtain ⟨span, rest, hbr, htext, hrest⟩ := h.bracketed_complete hn
  refine ⟨_, ?_, .array htext.trim⟩
  unfold arrayBody
  refine bind_eq_ok.2 ⟨_, hbr, bind_eq_ok.2 ⟨(), hrest.lineEnd_eq_ok_iff.2 rfl, ?_⟩⟩
  dsimp only
  rw [if_neg fun he => hne (htext.trim_eq_nil_iff.1 he)]
  exact bind_eq_ok.2 ⟨(), (checkElements_eq_ok_iff (lexes_splitTopLevel htext.trim) 1).2 he, rfl⟩

/-! ### Scalars -/

theorem isOneChar_iff : isOneChar taken = true ↔
    ∃ s c, taken.map Token.lexeme = [.charLiteral s] ∧ s.toList = [c] := by
  rcases taken with _ | ⟨⟨l, s⟩, _ | ⟨u, us⟩⟩
  · simp [isOneChar]
  · cases l <;> simp [isOneChar, List.length_eq_one_iff]
  · simp [isOneChar]

theorem scalarBody_sound (h : Remain cs ts ls) (hb : scalarBody cs typeName name ts = .ok d) :
    ∃ vs, ls = vs ++ [.mark .semicolon] ∧ vs ≠ [] ∧ IsValue 0 vs ∧
      (typeName = "char" → ∃ s c, vs = [.charLiteral s] ∧ s.toList = [c]) ∧
      Shape.Written (.scalar typeName name vs) d := by
  unfold scalarBody at hb
  obtain ⟨⟨taken, span, ts'⟩, hv, hb⟩ := bind_eq_ok.1 hb
  obtain ⟨ls', rfl, hne, hvalue, htext, -, h'⟩ := h.value_sound hv
  obtain ⟨u, hend, hb⟩ := bind_eq_ok.1 hb
  obtain rfl := h'.lineEnd_eq_ok_iff.1 hend
  dsimp only at hb
  split at hb
  · cases hb
  · next hc =>
      cases hb
      refine ⟨_, rfl, by simpa using hne, hvalue, fun ht => isOneChar_iff.1 ?_, .scalar htext⟩
      simpa [ht] using hc

theorem scalarBody_complete (h : Remain cs ts (vs ++ [.mark .semicolon])) (hv : IsValue 0 vs)
    (hne : vs ≠ []) (hc : typeName = "char" → ∃ s c, vs = [.charLiteral s] ∧ s.toList = [c]) :
    ∃ d, scalarBody cs typeName name ts = .ok d ∧ Shape.Written (.scalar typeName name vs) d := by
  obtain ⟨taken, span, rest, hread, rfl, htext, hrest⟩ :=
    h.value_complete hne hv fun l hl => (Option.some.inj hl).symm
  refine ⟨_, ?_, .scalar htext⟩
  unfold scalarBody
  refine bind_eq_ok.2 ⟨_, hread, bind_eq_ok.2 ⟨(), hrest.lineEnd_eq_ok_iff.2 rfl, ?_⟩⟩
  refine if_neg fun hbad => ?_
  simp only [Bool.and_eq_true, decide_eq_true_eq, Bool.not_eq_true', ← Bool.not_eq_true] at hbad
  exact hbad.2 (isOneChar_iff.2 (hc hbad.1))

end Remain

/-! ### Declarations -/

/-- Whether square brackets stand behind the type, and what is left behind them. -/
def arrayHead (ts : List Token) : Except SyntaxError (Bool × List Token) :=
  if (peek ts).lexeme = .mark (.opening .square) then
    (mark (.closing .square) "']' after '['" ts.tail).map fun r => (true, r.2)
  else .ok (false, ts)

theorem declaration_eq (cs : List Char) (ts : List Token) : declaration cs ts = (do
    let (typeName, ts) ← identifier "a type name" ts
    let (isArray, ts) ← arrayHead ts
    let (name, ts) ← identifier "a variable name" ts
    let (_, ts) ← mark .equals "'=' after the variable name" ts
    if isArray then arrayBody cs typeName name ts
    else if (peek ts).lexeme = .mark (.opening .round) || (peek ts).lexeme = .keyword .new then
      objectBody cs typeName name ts
    else scalarBody cs typeName name ts) := by
  unfold declaration arrayHead
  refine bind_congr fun ⟨typeName, ts⟩ => ?_
  dsimp only
  by_cases hsq : (peek ts).lexeme = .mark (.opening .square)
  · simp only [hsq, if_true]
    cases mark (.closing .square) "']' after '['" ts.tail <;> rfl
  · simp only [hsq, if_false]
    rfl

theorem declaration_sound (h : Remain cs ts ls) (hd : declaration cs ts = .ok d) :
    ∃ shape : Shape, ls = shape.lexemes ∧ shape.Proper ∧ shape.Written d := by
  rw [declaration_eq] at hd
  obtain ⟨⟨typeName, ts1⟩, htype, hd⟩ := bind_eq_ok.1 hd
  obtain ⟨⟨ls1, rfl⟩, rfl⟩ := h.identifier_eq_ok_iff.1 htype
  obtain ⟨⟨isArray, ts2⟩, harray, hd⟩ := bind_eq_ok.1 hd
  obtain ⟨⟨name, ts3⟩, hname, hd⟩ := bind_eq_ok.1 hd
  obtain ⟨⟨span, ts4⟩, heq, hd⟩ := bind_eq_ok.1 hd
  have h1 := h.tail
  unfold arrayHead at harray
  dsimp only at harray hname heq hd
  split at harray
  · next hsq =>
      obtain ⟨ls2, rfl⟩ := (h1.peek_eq_iff (by simp)).1 hsq
      obtain ⟨⟨span', ts2'⟩, hclose, he⟩ := map_eq_ok.1 harray
      cases he
      obtain ⟨⟨ls3, rfl⟩, -, rfl⟩ := h1.tail.mark_eq_ok_iff.1 hclose
      obtain ⟨⟨ls4, rfl⟩, rfl⟩ := h1.tail.tail.identifier_eq_ok_iff.1 hname
      obtain ⟨⟨ls5, rfl⟩, -, rfl⟩ := h1.tail.tail.tail.mark_eq_ok_iff.1 heq
      obtain ⟨inner, rfl, hp, hw⟩ := h1.tail.tail.tail.tail.arrayBody_sound hd
      exact ⟨_, rfl, hp, hw⟩
  · cases harray
    obtain ⟨⟨ls2, rfl⟩, rfl⟩ := h1.identifier_eq_ok_iff.1 hname
    obtain ⟨⟨ls3, rfl⟩, -, rfl⟩ := h1.tail.mark_eq_ok_iff.1 heq
    have h3 := h1.tail.tail
    rw [if_neg Bool.false_ne_true] at hd
    split at hd
    · obtain ⟨constructor?, inner, rfl, hp, hw⟩ := h3.objectBody_sound hd
      exact ⟨_, rfl, .object hp, hw⟩
    · next hstart =>
        obtain ⟨vs, rfl, hne, hv, hc, hw⟩ := h3.scalarBody_sound hd
        refine ⟨_, rfl, .scalar hv hne ?_ hc, hw⟩
        intro l hl
        cases vs with
        | nil => cases hl
        | cons k vs =>
            obtain rfl : k = l := Option.some.inj hl
            rw [h3.peek_cons] at hstart
            simpa using hstart

/-- What stands in front of the body of a declaration that is no array. -/
theorem declaration_plain {typeName name : String}
    (h : Remain cs ts (.ident typeName :: .ident name :: .mark .equals :: ls)) :
    declaration cs ts =
      if (peek ts.tail.tail.tail).lexeme = .mark (.opening .round) ||
          (peek ts.tail.tail.tail).lexeme = .keyword .new then
        objectBody cs typeName name ts.tail.tail.tail
      else scalarBody cs typeName name ts.tail.tail.tail := by
  have harray : arrayHead ts.tail = .ok (false, ts.tail) :=
    if_neg (by rw [h.tail.peek_cons]; simp)
  rw [declaration_eq, h.identifier_eq_ok_iff.2 ⟨⟨_, rfl⟩, rfl⟩]
  simp only [bind, Except.bind]
  rw [harray]
  dsimp only
  rw [h.tail.identifier_eq_ok_iff.2 ⟨⟨_, rfl⟩, rfl⟩]
  dsimp only
  rw [h.tail.tail.mark_eq_ok_iff.2 ⟨⟨_, rfl⟩, rfl, rfl⟩]
  rfl

theorem declaration_array {typeName name : String}
    (h : Remain cs ts (.ident typeName :: .mark (.opening .square) :: .mark (.closing .square) ::
      .ident name :: .mark .equals :: ls)) :
    declaration cs ts = arrayBody cs typeName name ts.tail.tail.tail.tail.tail := by
  have harray : arrayHead ts.tail = .ok (true, ts.tail.tail.tail) := by
    unfold arrayHead
    rw [if_pos h.tail.peek_cons, h.tail.tail.mark_eq_ok_iff.2 ⟨⟨_, rfl⟩, rfl, rfl⟩]
    rfl
  rw [declaration_eq, h.identifier_eq_ok_iff.2 ⟨⟨_, rfl⟩, rfl⟩]
  simp only [bind, Except.bind]
  rw [harray]
  dsimp only
  rw [h.tail.tail.tail.identifier_eq_ok_iff.2 ⟨⟨_, rfl⟩, rfl⟩]
  dsimp only
  rw [h.tail.tail.tail.tail.mark_eq_ok_iff.2 ⟨⟨_, rfl⟩, rfl, rfl⟩]
  rfl

theorem declaration_complete {shape : Shape} (h : Remain cs ts shape.lexemes)
    (hp : shape.Proper) : ∃ d, declaration cs ts = .ok d ∧ shape.Written d := by
  cases hp with
  | array hn hne he =>
      rw [declaration_array h]
      exact h.tail.tail.tail.tail.tail.arrayBody_complete hn hne he
  | @object typeName name constructor? inner ha =>
      have hbody := h.tail.tail.tail
      rw [declaration_plain h, if_pos]
      · exact hbody.objectBody_complete ha
      · cases constructor? with
        | none => rw [Remain.peek_cons (l := .mark (.opening .round)) hbody]; rfl
        | some c => rw [Remain.peek_cons (l := .keyword .new) hbody]; rfl
  | @scalar typeName name vs hv hne hs hc =>
      have hbody := h.tail.tail.tail
      rw [declaration_plain h, if_neg]
      · exact hbody.scalarBody_complete hv hne hc
      · cases vs with
        | nil => exact absurd rfl hne
        | cons l vs =>
            rw [Remain.peek_cons (l := l) hbody]
            simpa using hs l rfl

/-- **A declaration that is accepted has a proper shape.** -/
theorem checkDeclaration_sound (h : checkDeclaration cs = .ok d) :
    ∃ shape : Shape, Lexes cs shape.lexemes ∧ shape.Proper ∧ shape.Written d := by
  unfold checkDeclaration at h
  obtain ⟨-, -, h⟩ := bind_eq_ok.1 h
  obtain ⟨ts, hts, h⟩ := bind_eq_ok.1 h
  obtain ⟨ls, hl, hr⟩ := exists_remain_of_readTokens hts
  obtain ⟨shape, rfl, hp, hw⟩ := declaration_sound hr h
  exact ⟨shape, hl, hp, hw⟩

/-- **Every line of a proper shape is accepted.** -/
theorem checkDeclaration_complete {shape : Shape} (h : Lexes cs shape.lexemes)
    (hp : shape.Proper) : ∃ d, checkDeclaration cs = .ok d ∧ shape.Written d := by
  obtain ⟨ts, hts, hr⟩ := h.exists_readTokens
  obtain ⟨d, hd, hw⟩ := declaration_complete hr hp
  refine ⟨d, bind_eq_ok.2 ⟨(), ?_, bind_eq_ok.2 ⟨ts, hts, hd⟩⟩, hw⟩
  exact h.terminated_eq_ok_iff.2 shape.getLast?_lexemes

/-! ### Kinds of lines -/

/-- The lexemes that a line starts with when it is meant to be of another kind than a declaration. -/
inductive StartsCommand : List Lexeme → Prop where
  | enter {ls : List Lexeme} : StartsCommand (.keyword .enter :: ls)
  | leave {ls : List Lexeme} : StartsCommand (.keyword .leave :: ls)
  | assignment {target : String} {ls : List Lexeme} (ht : Primitive.ofName? target = none) :
      StartsCommand (.ident target :: .mark .equals :: ls)

/-- The kind of line that lexemes are. -/
inductive Classifies : List Lexeme → LineKind → Prop where
  | enter {name : String} {inner : List Lexeme} (hn : Nested .round 0 inner) :
      Classifies (.keyword .enter :: .ident name :: .mark (.opening .round) ::
        (inner ++ [.mark (.closing .round), .mark .semicolon])) (.enter name)
  | leave : Classifies [.keyword .leave, .mark .semicolon] .leave
  | assignment {target : String} {vs : List Lexeme} {text : List Char}
      (ht : Primitive.ofName? target = none) (hne : vs ≠ []) (hv : IsValue 0 vs)
      (h : Lexes text vs) :
      Classifies (.ident target :: .mark .equals :: (vs ++ [.mark .semicolon]))
        (.assignment target text)
  | declaration {ls : List Lexeme}
      (h : ls.getLast? = some (.mark .semicolon) → ¬StartsCommand ls) : Classifies ls .declaration

/-- Kinds of lines that are the same but for the spelling of a value. -/
inductive LineKind.Alike : LineKind → LineKind → Prop where
  | refl (kind : LineKind) : Alike kind kind
  | assignment {target : String} {vs : List Lexeme} {text text' : List Char} (h : Lexes text vs)
      (h' : Lexes text' vs) : Alike (.assignment target text) (.assignment target text')

namespace Remain

variable {target : String} {kind : LineKind}

theorem enterLine_sound (h : Remain cs ts ls) (hk : enterLine ts = .ok kind) :
    Classifies (.keyword .enter :: ls) kind := by
  unfold enterLine at hk
  obtain ⟨⟨name, ts1⟩, hi, hk⟩ := bind_eq_ok.1 hk
  obtain ⟨⟨ls1, rfl⟩, rfl⟩ := h.identifier_eq_ok_iff.1 hi
  obtain ⟨⟨span, ts2⟩, hb, hk⟩ := bind_eq_ok.1 hk
  obtain ⟨inner, ls2, rfl, hn, -, h2⟩ := h.tail.bracketed_sound hb
  obtain ⟨u, hend, he⟩ := bind_eq_ok.1 hk
  obtain rfl := h2.lineEnd_eq_ok_iff.1 hend
  cases he
  exact .enter hn

theorem enterLine_complete (h : Remain cs ts (.ident name :: .mark (.opening .round) ::
      (inner ++ [.mark (.closing .round), .mark .semicolon]))) (hn : Nested .round 0 inner) :
    enterLine ts = .ok (.enter name) := by
  obtain ⟨span, rest, hb, -, hrest⟩ := h.tail.bracketed_complete hn
  unfold enterLine
  exact bind_eq_ok.2 ⟨_, h.identifier_eq_ok_iff.2 ⟨⟨_, rfl⟩, rfl⟩,
    bind_eq_ok.2 ⟨_, hb, bind_eq_ok.2 ⟨(), hrest.lineEnd_eq_ok_iff.2 rfl, rfl⟩⟩⟩

theorem assignmentLine_sound (h : Remain cs ts ls) (ht : Primitive.ofName? target = none)
    (hk : assignmentLine cs target ts = .ok kind) :
    Classifies (.ident target :: .mark .equals :: ls) kind := by
  unfold assignmentLine at hk
  obtain ⟨⟨taken, span, ts1⟩, hv, hk⟩ := bind_eq_ok.1 hk
  obtain ⟨ls1, rfl, hne, hvalue, htext, -, h1⟩ := h.value_sound hv
  obtain ⟨u, hend, he⟩ := bind_eq_ok.1 hk
  obtain rfl := h1.lineEnd_eq_ok_iff.1 hend
  cases he
  exact .assignment ht (by simpa using hne) hvalue htext

theorem assignmentLine_complete (target : String) (h : Remain cs ts (vs ++ [.mark .semicolon])) (hne : vs ≠ [])
    (hv : IsValue 0 vs) : ∃ text', assignmentLine cs target ts = .ok (.assignment target text') ∧
      Lexes text' vs := by
  obtain ⟨taken, span, rest, hread, -, htext, hrest⟩ :=
    h.value_complete hne hv fun l hl => (Option.some.inj hl).symm
  refine ⟨_, ?_, htext⟩
  unfold assignmentLine
  exact bind_eq_ok.2 ⟨_, hread, bind_eq_ok.2 ⟨(), hrest.lineEnd_eq_ok_iff.2 rfl, rfl⟩⟩

theorem classifyTokens_sound (h : Remain cs ts ls) (hk : classifyTokens cs ts = .ok kind) :
    Classifies ls kind := by
  unfold classifyTokens at hk
  split at hk
  · next hp =>
      obtain ⟨ls1, rfl⟩ := (h.peek_eq_iff (by simp)).1 hp
      exact h.tail.enterLine_sound hk
  · next hp =>
      obtain ⟨ls1, rfl⟩ := (h.peek_eq_iff (by simp)).1 hp
      obtain ⟨u, hend, rfl⟩ := map_eq_ok.1 hk
      obtain rfl := h.tail.lineEnd_eq_ok_iff.1 hend
      exact .leave
  · next target hp =>
      obtain ⟨ls1, rfl⟩ := (h.peek_eq_iff (by simp)).1 hp
      simp only [Bool.and_eq_true, Option.isNone_iff_eq_none, decide_eq_true_eq] at hk
      split at hk
      · next ht =>
          obtain ⟨ls2, rfl⟩ := (h.tail.peek_eq_iff (by simp)).1 ht.2
          exact h.tail.tail.assignmentLine_sound ht.1 hk
      · next ht =>
          cases hk
          refine .declaration fun _ hs => ?_
          cases hs with
          | assignment hp => exact ht ⟨hp, h.tail.peek_cons⟩
  · next h1 h2 h3 =>
      cases hk
      refine .declaration fun _ hs => ?_
      cases hs with
      | enter => exact h1 h.peek_cons
      | leave => exact h2 h.peek_cons
      | assignment _ => exact h3 _ h.peek_cons

/-- A line that starts with a variable and an equals sign is read as an assignment. -/
theorem classifyTokens_eq_assignmentLine (h : Remain cs ts (.ident target :: .mark .equals :: ls))
    (ht : Primitive.ofName? target = none) :
    classifyTokens cs ts = assignmentLine cs target ts.tail.tail := by
  unfold classifyTokens
  rw [h.peek_cons]
  dsimp only
  exact if_pos (by simp [ht, h.tail.peek_cons])

/-- A line that does not start as another kind is taken for a declaration. -/
theorem classifyTokens_eq_declaration (h : Remain cs ts ls) (hs : ¬StartsCommand ls) :
    classifyTokens cs ts = .ok .declaration := by
  unfold classifyTokens
  split
  · next hp =>
      obtain ⟨ls1, rfl⟩ := (h.peek_eq_iff (by simp)).1 hp
      exact absurd .enter hs
  · next hp =>
      obtain ⟨ls1, rfl⟩ := (h.peek_eq_iff (by simp)).1 hp
      exact absurd .leave hs
  · next target hp =>
      obtain ⟨ls1, rfl⟩ := (h.peek_eq_iff (by simp)).1 hp
      refine if_neg fun ht => ?_
      simp only [Bool.and_eq_true, Option.isNone_iff_eq_none, decide_eq_true_eq] at ht
      obtain ⟨ls2, rfl⟩ := (h.tail.peek_eq_iff (by simp)).1 ht.2
      exact hs (.assignment ht.1)
  · rfl

end Remain

/-- The kind of a terminated line is read off its tokens. -/
theorem Lexes.classify_eq (h : Lexes cs ls) (hlast : ls.getLast? = some (.mark .semicolon))
    (hts : readTokens cs = .ok ts) : classify cs = classifyTokens cs ts := by
  unfold classify
  rw [hts, h.terminated_eq_ok_iff.2 hlast]

/-- **The lexemes of a line settle its kind.** -/
theorem classifies_of_classify {kind : LineKind} (h : Lexes cs ls) (hk : classify cs = .ok kind) :
    Classifies ls kind := by
  obtain ⟨ts, hts, hr⟩ := h.exists_readTokens
  unfold classify at hk
  rw [hts] at hk
  cases ht : terminated cs with
  | ok u =>
      rw [ht] at hk
      exact hr.classifyTokens_sound hk
  | error e =>
      rw [ht] at hk
      cases hk
      refine .declaration fun hlast => ?_
      rw [h.terminated_eq_ok_iff.2 hlast] at ht
      cases ht

/-- **A line is of the kind that its lexemes are.** -/
theorem exists_classify {kind : LineKind} (h : Lexes cs ls) (hk : Classifies ls kind) :
    ∃ kind', classify cs = .ok kind' ∧ kind.Alike kind' := by
  obtain ⟨ts, hts, hr⟩ := h.exists_readTokens
  cases hk with
  | enter hn =>
      refine ⟨_, ?_, .refl _⟩
      rw [h.classify_eq (by simp [List.getLast?_cons]) hts]
      unfold classifyTokens
      rw [hr.peek_cons]
      exact hr.tail.enterLine_complete hn
  | leave =>
      refine ⟨_, ?_, .refl _⟩
      rw [h.classify_eq rfl hts]
      unfold classifyTokens
      rw [hr.peek_cons]
      exact map_eq_ok.2 ⟨(), hr.tail.lineEnd_eq_ok_iff.2 rfl, rfl⟩
  | @assignment target vs text ht hne hv htext =>
      obtain ⟨text', hread, htext'⟩ := hr.tail.tail.assignmentLine_complete target hne hv
      refine ⟨_, ?_, .assignment htext htext'⟩
      rw [h.classify_eq (by simp [List.getLast?_cons]) hts, hr.classifyTokens_eq_assignmentLine ht]
      exact hread
  | declaration hs =>
      refine ⟨_, ?_, .refl _⟩
      by_cases hlast : ls.getLast? = some (.mark .semicolon)
      · rw [h.classify_eq hlast hts]
        exact hr.classifyTokens_eq_declaration (hs hlast)
      · unfold classify
        rw [hts]
        cases ht : terminated cs with
        | ok u => exact absurd (h.terminated_eq_ok_iff.1 ht) hlast
        | error e => rfl

/-! ### Right-hand sides -/

/-- What lexemes denote on a right-hand side. -/
inductive Denotes : List Lexeme → RightSide → Prop where
  | variable (name : String) : Denotes [.ident name] (.variable name)
  | null : Denotes [.keyword .null] .null
  | construct {typeName : String} {inner : List Lexeme} {text : List Char}
      (ha : IsAttributeList inner) (h : Lexes text inner) :
      Denotes (.keyword .new :: .ident typeName :: .mark (.opening .round) ::
        (inner ++ [.mark (.closing .round)])) (.construct typeName text)
  | literal {ls : List Lexeme} {text : List Char} (hv : ∀ name, ls ≠ [.ident name])
      (hn : ls ≠ [.keyword .null]) (hc : ls.head? ≠ some (.keyword .new)) (h : Lexes text ls) :
      Denotes ls (.literal text)

/-- Right-hand sides that are the same but for the spelling of their parts. -/
inductive RightSide.Alike : RightSide → RightSide → Prop where
  | refl (side : RightSide) : Alike side side
  | construct {typeName : String} {inner : List Lexeme} {text text' : List Char}
      (h : Lexes text inner) (h' : Lexes text' inner) :
      Alike (.construct typeName text) (.construct typeName text')
  | literal {ls : List Lexeme} {text text' : List Char} (h : Lexes text ls)
      (h' : Lexes text' ls) : Alike (.literal text) (.literal text')

/-- The object that is constructed, behind the word `new`. -/
def construction (text : List Char) (ts : List Token) : Except SyntaxError RightSide := do
  let (typeName, ts) ← identifier "a constructor name after 'new'" ts
  let (attributes, ts) ← attributeList text ts
  if (peek ts).lexeme = .finish then .ok (.construct typeName attributes)
  else .error (.expected "end of value after ')'" (peek ts))

theorem rightSide_new (h : Lexes cs (.keyword .new :: ls)) :
    ∃ ts, Remain (trim cs) ts ls ∧ rightSide cs = construction (trim cs) ts := by
  obtain ⟨ts, hts, hr⟩ := h.trim.exists_readTokens
  refine ⟨ts.tail, hr.tail, ?_⟩
  unfold rightSide construction
  dsimp only
  rw [hts]
  simp only [bind, Except.bind, hr.lexemes, List.cons_append]

/-- What the lexemes of anything but a constructor denote. -/
def plainSide (text : List Char) : List Lexeme → RightSide
  | [.ident name] => .variable name
  | [.keyword .null] => .null
  | _ => .literal text

theorem rightSide_plain (h : Lexes cs ls) (hc : ls.head? ≠ some (.keyword .new)) :
    rightSide cs = .ok (plainSide (trim cs) ls) := by
  obtain ⟨ts, hts, hr⟩ := h.trim.exists_readTokens
  unfold rightSide
  dsimp only
  rw [hts]
  simp only [bind, Except.bind, hr.lexemes]
  match ls, hc with
  | [], _ => rfl
  | [l], hc =>
      rcases l with _ | _ | _ | _ | k | _ | _
      case keyword => cases k <;> first | rfl | exact absurd rfl hc
      all_goals rfl
  | l :: k :: ls, hc =>
      -- Behind two lexemes there is more than the end.
      have htwo : ∀ a b : Lexeme, l :: k :: ls ++ [.finish] ≠ [a, b] := by simp
      split
      · next he => exact absurd he (htwo _ _)
      · next he => exact absurd he (htwo _ _)
      · next he => exact absurd (by rw [(List.cons.inj he).1]; rfl) hc
      · simp [plainSide]

theorem Remain.construction_sound {side : RightSide} (h : Remain cs ts ls)
    (hs : construction cs ts = .ok side) : Denotes (.keyword .new :: ls) side := by
  unfold construction at hs
  obtain ⟨⟨typeName, ts1⟩, hi, hs⟩ := bind_eq_ok.1 hs
  obtain ⟨⟨ls1, rfl⟩, rfl⟩ := h.identifier_eq_ok_iff.1 hi
  obtain ⟨⟨text, ts2⟩, ha, hs⟩ := bind_eq_ok.1 hs
  obtain ⟨inner, ls2, rfl, hlist, htext, h2⟩ := h.tail.attributeList_sound ha
  dsimp only at hs
  split at hs
  · next hp =>
      cases hs
      rw [h2.peek_eq_finish_iff.1 hp]
      exact .construct hlist htext
  · cases hs

theorem Remain.construction_complete (h : Remain cs ts (.ident typeName ::
      .mark (.opening .round) :: (inner ++ [.mark (.closing .round)]))) (ha : IsAttributeList inner) :
    ∃ text', construction cs ts = .ok (.construct typeName text') ∧ Lexes text' inner := by
  obtain ⟨text', rest, hlist, htext, hrest⟩ := h.tail.attributeList_complete ha
  refine ⟨text', ?_, htext⟩
  unfold construction
  refine bind_eq_ok.2 ⟨_, h.identifier_eq_ok_iff.2 ⟨⟨_, rfl⟩, rfl⟩, bind_eq_ok.2 ⟨_, hlist, ?_⟩⟩
  exact if_pos hrest.peek_nil

/-- **The lexemes of a right-hand side settle what it denotes.** -/
theorem denotes_of_rightSide {side : RightSide} (h : Lexes cs ls) (hs : rightSide cs = .ok side) :
    Denotes ls side := by
  by_cases hc : ls.head? = some (.keyword .new)
  · obtain ⟨ls1, rfl⟩ := List.head?_eq_some_iff.1 hc
    obtain ⟨ts, hr, he⟩ := rightSide_new h
    rw [he] at hs
    exact hr.construction_sound hs
  · obtain rfl := Except.ok.inj ((rightSide_plain h hc).symm.trans hs)
    unfold plainSide
    split
    · exact .variable _
    · exact .null
    · next hv hn => exact .literal hv hn hc h.trim

/-- **A right-hand side denotes what its lexemes do.** -/
theorem exists_rightSide {side : RightSide} (h : Lexes cs ls) (hs : Denotes ls side) :
    ∃ side', rightSide cs = .ok side' ∧ side.Alike side' := by
  cases hs with
  | «variable» name =>
      exact ⟨_, rightSide_plain h (by simp), .refl _⟩
  | null => exact ⟨_, rightSide_plain h (by simp), .refl _⟩
  | construct ha htext =>
      obtain ⟨ts, hr, he⟩ := rightSide_new h
      obtain ⟨text', hread, htext'⟩ := hr.construction_complete ha
      exact ⟨_, he.trans hread, .construct htext htext'⟩
  | literal hv hn hc htext =>
      have hplain : plainSide (trim cs) ls = .literal (trim cs) := by
        unfold plainSide
        split
        · next name => exact absurd rfl (hv name)
        · exact absurd rfl hn
        · rfl
      exact ⟨_, (rightSide_plain h hc).trans (congrArg Except.ok hplain), .literal htext h.trim⟩

end StackHeap.Command
