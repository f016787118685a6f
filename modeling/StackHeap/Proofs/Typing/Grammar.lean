import StackHeap.Proofs.Command.Lines
import StackHeap.Proofs.Typing.Literals

/-! # The grammar of declarations

`Declares ls d` says that the lexemes `ls` are a declaration, and that `d` is what it declares.  It is
written down from the documentation of the language alone: no depth of brackets, no cutting at
commas and no order of checks.

**The gate accepts exactly this grammar** (`process_eq_ok_iff_declares`).

* **Soundness.**  A list that was cut at its commas is its parts joined with commas, so what the
  checks find out about each part is what the grammar asks.
* **Completeness.**  The parts of a list in the grammar have neither commas nor brackets, so the
  list is cut where it was joined, and no bracket is closed too early. -/

namespace StackHeap.Typing

open Text Number Command

/-! ### The grammar -/

/-- The lexemes of an attribute, and the field that it describes. -/
inductive AttributeOf : List Lexeme → Field → Prop where
  | typed {name : String} {p : Primitive} {ls : List Lexeme} {v : Value} (h : LiteralOf p ls v) :
      AttributeOf (.ident p.name :: .ident name :: .mark .equals :: ls) ⟨name, p, v⟩
  | inferred {name : String} {p : Primitive} {ls : List Lexeme} {v : Value}
      (hp : NaturalType ls p) (h : LiteralOf p ls v) :
      AttributeOf (.ident name :: .mark .equals :: ls) ⟨name, p, v⟩

/-- The lexemes of an element of an array of the given type. -/
inductive ElementOf : DeclaredType → List Lexeme → Element → Prop where
  | variable (type : DeclaredType) (name : String) : ElementOf type [.ident name] (.variable name)
  | literal {p : Primitive} {ls : List Lexeme} {v : Value} (h : Assignable p ls v) :
      ElementOf (.primitive p) ls (.value v)
  | null {type : DeclaredType} (hn : type.primitive? = none) :
      ElementOf type [.keyword .null] (.value .null)

/-- The fields of an object, from the lexemes of its attributes: at least one, and no two of one
name. -/
structure AttributesOf (attributes : List (List Lexeme)) (fields : List Field) : Prop where
  ne_nil : fields ≠ []
  each : List.Forall₂ AttributeOf attributes fields
  names : (fields.map Field.name).Nodup

/-- The lexemes of a declaration, and what it declares. -/
inductive Declares : List Lexeme → TypedDeclaration → Prop where
  /-- `p name = literal;` -/
  | scalar {p : Primitive} {name : String} {ls : List Lexeme} {v : Value} (h : Assignable p ls v) :
      Declares (.ident p.name :: .ident name :: .mark .equals :: (ls ++ [.mark .semicolon]))
        ⟨name, .scalar p v⟩
  /-- `type name = source;` -/
  | copy {typeName name source : String} (ht : typeName ≠ "char") :
      Declares [.ident typeName, .ident name, .mark .equals, .ident source, .mark .semicolon]
        ⟨name, .copy (.ofName typeName) source⟩
  /-- `type name = null;` -/
  | null {typeName name : String} (ht : Primitive.ofName? typeName = none) :
      Declares [.ident typeName, .ident name, .mark .equals, .keyword .null, .mark .semicolon]
        ⟨name, .null (.object typeName)⟩
  /-- `type name = (attributes);` -/
  | object {typeName name : String} {attributes : List (List Lexeme)} {fields : List Field}
      (ht : Primitive.ofName? typeName = none) (ha : AttributesOf attributes fields) :
      Declares (.ident typeName :: .ident name :: .mark .equals :: .mark (.opening .round) ::
        (commaList attributes ++ [.mark (.closing .round), .mark .semicolon]))
        ⟨name, .object typeName fields⟩
  /-- `type name = new type(attributes);` -/
  | construct {typeName name : String} {attributes : List (List Lexeme)} {fields : List Field}
      (ht : Primitive.ofName? typeName = none) (ha : AttributesOf attributes fields) :
      Declares (.ident typeName :: .ident name :: .mark .equals :: .keyword .new ::
        .ident typeName :: .mark (.opening .round) ::
        (commaList attributes ++ [.mark (.closing .round), .mark .semicolon]))
        ⟨name, .object typeName fields⟩
  /-- `type[] name = {elements};` -/
  | array {typeName name : String} {elements : List (List Lexeme)} {es : List Element}
      (hne : es ≠ []) (he : List.Forall₂ (ElementOf (.ofName typeName)) elements es) :
      Declares (.ident typeName :: .mark (.opening .square) :: .mark (.closing .square) ::
        .ident name :: .mark .equals :: .mark (.opening .curly) ::
        (commaList elements ++ [.mark (.closing .curly), .mark .semicolon]))
        ⟨name, .array (.ofName typeName) es⟩

variable {p : Primitive} {v : Value} {cs text : List Char} {ls vs inner : List Lexeme}
  {typeName name : String} {fields : List Field} {es : List Element}

/-! ### Literals in lists -/

/-- Whether a lexeme may stand in a literal. -/
def isAtom : Lexeme → Bool
  | .mark .plus | .mark .minus => true
  | .mark _ | .finish | .keyword .new => false
  | _ => true

theorem isFlat_of_isAtom {l : Lexeme} (h : isAtom l = true) : l.isFlat = true := by
  rcases l with _ | _ | _ | _ | _ | m | _
  case mark => rcases m with _ | _ | _ | _ | _ | b | b <;> first | rfl | cases h
  all_goals rfl

/-- Lexemes that are some and all atoms. -/
structure Atoms (ls : List Lexeme) : Prop where
  ne_nil : ls ≠ []
  all : ∀ l ∈ ls, isAtom l = true

theorem Atoms.isValue (h : Atoms ls) : IsValue 0 ls := by
  obtain ⟨-, hall⟩ := h
  induction ls with
  | nil => trivial
  | cons l ls ih =>
      have hl := hall l List.mem_cons_self
      refine ⟨?_, ?_, ?_⟩
      · rintro (rfl | rfl) <;> cases hl
      · rintro ⟨rfl, -⟩
        cases hl
      · rw [depthAfter_of_isFlat (isFlat_of_isAtom hl)]
        exact ih fun k hk => hall k (List.mem_cons_of_mem _ hk)

theorem Atoms.head? (h : Atoms ls) :
    ∀ l ∈ ls.head?, l ≠ .mark (.opening .round) ∧ l ≠ .keyword .new := by
  intro l hl
  have ha := h.all l (List.mem_of_mem_head? hl)
  constructor <;> rintro rfl <;> cases ha

theorem atoms_singleton {l : Lexeme} (h : isAtom l = true) : Atoms [l] :=
  ⟨List.cons_ne_nil _ _, fun k hk => by rw [List.mem_singleton.1 hk]; exact h⟩

theorem atoms_signed {negative : Bool} {digits : List Char} (h : Signed ls negative digits) :
    Atoms ls := by
  cases h with
  | bare s => exact atoms_singleton rfl
  | plus s => exact ⟨List.cons_ne_nil _ _, by simp [isAtom]⟩
  | minus s => exact ⟨List.cons_ne_nil _ _, by simp [isAtom]⟩

theorem atoms_literal (h : LiteralOf p ls v) : Atoms ls := by
  cases h with
  | integer hs _ _ => exact atoms_signed hs
  | decimal _ hs _ _ => exact atoms_signed hs
  | _ => exact atoms_singleton rfl

theorem atoms_assignable (h : Assignable p ls v) : Atoms ls := by
  cases h with
  | literal h => exact atoms_literal h
  | char ha hc => exact atoms_singleton rfl

/-- A name is no literal. -/
theorem not_assignable_ident : ¬Assignable p [.ident name] v := by
  intro h
  cases h with
  | literal h =>
      cases h with
      | integer hs _ _ => cases hs
      | decimal _ hs _ _ => cases hs

theorem atoms_element {type : DeclaredType} {e : Element} (h : ElementOf type ls e) : Atoms ls := by
  cases h with
  | «variable» type name => exact atoms_singleton rfl
  | literal h => exact atoms_assignable h
  | null hn => exact atoms_singleton rfl

theorem isAttribute_of_attributeOf {f : Field} (h : AttributeOf ls f) : IsAttribute ls := by
  cases h with
  | @typed name p ls v h =>
      exact ⟨some p.name, name, ls, rfl, (atoms_literal h).ne_nil, (atoms_literal h).isValue⟩
  | @inferred name p ls v hp h =>
      exact ⟨none, name, ls, rfl, (atoms_literal h).ne_nil, (atoms_literal h).isValue⟩

theorem isFlat_of_attributeOf {f : Field} (h : AttributeOf ls f) :
    ∀ l ∈ ls, l.isFlat = true := by
  cases h with
  | typed h =>
      simp only [List.forall_mem_cons]
      exact ⟨rfl, rfl, rfl, fun l hl => isFlat_of_isAtom ((atoms_literal h).all l hl)⟩
  | inferred hp h =>
      simp only [List.forall_mem_cons]
      exact ⟨rfl, rfl, fun l hl => isFlat_of_isAtom ((atoms_literal h).all l hl)⟩

/-- Joined parts without brackets close no bracket. -/
theorem nested_commaList (b : Bracket) {parts : List (List Lexeme)}
    (h : ∀ part ∈ parts, ∀ l ∈ part, l.isFlat = true) : Nested b 0 (commaList parts) := by
  have hflat : ∀ ls : List Lexeme, (∀ l ∈ ls, l = .mark .comma ∨ l.isFlat = true) →
      Nested b 0 ls := by
    intro ls
    induction ls with
    | nil => exact fun _ => rfl
    | cons l ls ih =>
        intro hall
        have hl := hall l List.mem_cons_self
        rw [Nested, if_neg, if_neg]
        · exact ih fun k hk => hall k (List.mem_cons_of_mem _ hk)
        · rintro rfl
          rcases hl with hl | hl <;> cases hl
        · rintro rfl
          rcases hl with hl | hl <;> cases hl
  refine hflat _ fun l hl => (mem_commaList hl).imp_right ?_
  rintro ⟨part, hp, hl⟩
  exact h part hp l hl

theorem commaList_ne_nil {parts : List (List Lexeme)} (hne : parts ≠ [])
    (h : ∀ part ∈ parts, part ≠ []) : commaList parts ≠ [] := by
  cases parts with
  | nil => exact absurd rfl hne
  | cons part parts =>
      have hpart := h part List.mem_cons_self
      cases parts with
      | nil => rwa [commaList, List.intercalate_singleton]
      | cons part' parts =>
          rw [commaList, List.intercalate_cons_cons, List.append_assoc]
          exact List.append_ne_nil_of_left_ne_nil hpart _

theorem forall_mem_of_forall₂ {α β : Type} {R : α → β → Prop} {P : α → Prop} {as : List α}
    {bs : List β} (h : List.Forall₂ R as bs) (hR : ∀ a b, R a b → P a) : ∀ a ∈ as, P a := by
  induction h with
  | nil => exact fun a ha => absurd ha List.not_mem_nil
  | cons hab _ ih =>
      intro a ha
      rcases List.mem_cons.1 ha with rfl | ha
      · exact hR _ _ hab
      · exact ih a ha

/-! ### Attributes -/

theorem attributeType_eq_ok_iff {a : Attribute} (h : Lexes a.value vs) :
    attributeType a = .ok p ↔
      a.typeName = some p.name ∨ a.typeName = none ∧ NaturalType vs p := by
  obtain ⟨typeName, name, value⟩ := a
  have hnatural := naturalType?_eq_some_iff (p := p) h
  unfold attributeType
  dsimp only at hnatural ⊢
  cases typeName with
  | some typeName =>
      rw [Option.some.injEq, ← Primitive.ofName?_eq_some_iff]
      dsimp only
      cases Primitive.ofName? typeName <;> simp
  | none =>
      rw [← hnatural]
      dsimp only
      cases naturalType? value <;> simp

theorem attributeOf_of_readField {f : Field} (h : Lexes cs ls) (hf : readField cs = .ok f) :
    AttributeOf ls f := by
  simp only [readField, bind_eq_ok, mapError_eq_ok, return_eq_ok, Attribute.ofText] at hf
  obtain ⟨⟨typeName, name, value⟩, ha, p, hp, v, hv, rfl⟩ := hf
  obtain ⟨vs, rfl, -, -, htext⟩ := readAttribute_sound h ha
  have hl := (checkPrimitive_eq_ok_iff htext).1 hv
  rcases (attributeType_eq_ok_iff htext).1 hp with ht | ⟨ht, hn⟩
  · obtain rfl : typeName = some p.name := ht
    exact .typed hl
  · obtain rfl : typeName = none := ht
    exact .inferred hn hl

theorem readField_of_attributeOf {f : Field} (h : Lexes cs ls) (hf : AttributeOf ls f) :
    readField cs = .ok f := by
  simp only [readField, bind_eq_ok, mapError_eq_ok, return_eq_ok, Attribute.ofText]
  cases hf with
  | @typed name p vs v hl =>
      obtain ⟨text, ha, htext⟩ := readAttribute_complete (some p.name) h
        (atoms_literal hl).ne_nil (atoms_literal hl).isValue
      exact ⟨_, ha, p, (attributeType_eq_ok_iff htext).2 (.inl rfl), v,
        (checkPrimitive_eq_ok_iff htext).2 hl, rfl⟩
  | @inferred name p vs v hn hl =>
      obtain ⟨text, ha, htext⟩ := readAttribute_complete none h
        (atoms_literal hl).ne_nil (atoms_literal hl).isValue
      exact ⟨_, ha, p, (attributeType_eq_ok_iff htext).2 (.inr ⟨rfl, hn⟩), v,
        (checkPrimitive_eq_ok_iff htext).2 hl, rfl⟩

section Lists

variable {parts : List (List Char)} {lexed : List (List Lexeme)} {owner : String}

/-- The fields of a list of attributes, behind those in `done`. -/
theorem readFields_eq_ok_iff (done : List Field) (h : List.Forall₂ Lexes parts lexed)
    (hd : (done.map Field.name).Nodup) :
    readFields owner done parts = .ok fields ↔
      ∃ new, fields = done ++ new ∧ List.Forall₂ AttributeOf lexed new ∧
        (fields.map Field.name).Nodup := by
  induction h generalizing done with
  | nil =>
      rw [readFields, Except.ok.injEq]
      constructor
      · rintro rfl
        exact ⟨[], (List.append_nil done).symm, .nil, hd⟩
      · rintro ⟨new, rfl, hnew, -⟩
        cases hnew
        rw [List.append_nil]
  | @cons part ls parts lexed hpart _ ih =>
      simp only [readFields, bind_eq_ok, mapError_eq_ok]
      have hname : ∀ f : Field, done.any (·.name = f.name) = true ↔
          f.name ∈ done.map Field.name := by
        intro f
        simp only [List.any_eq_true, decide_eq_true_eq, List.mem_map]
      have hdone : ∀ f : Field, f.name ∉ done.map Field.name →
          ((done ++ [f]).map Field.name).Nodup := by
        intro f hf
        rw [List.map_append, List.nodup_append']
        exact ⟨hd, List.nodup_singleton _, by simpa using hf⟩
      constructor
      · rintro ⟨f, hf, hrest⟩
        split at hrest
        · cases hrest
        · next hn =>
            rw [hname] at hn
            obtain ⟨new, rfl, hnew, hnodup⟩ := (ih _ (hdone f hn)).1 hrest
            exact ⟨f :: new, by simp, .cons (attributeOf_of_readField hpart hf) hnew, hnodup⟩
      · rintro ⟨new, rfl, hnew, hnodup⟩
        cases hnew with
        | @cons _ f _ new hf hnew =>
            have hn : f.name ∉ done.map Field.name := by
              rw [List.map_append, List.nodup_append'] at hnodup
              exact fun hm => hnodup.2.2 hm List.mem_cons_self
            refine ⟨f, readField_of_attributeOf hpart hf, ?_⟩
            rw [if_neg fun hm => hn ((hname f).1 hm)]
            exact (ih _ (hdone f hn)).2 ⟨new, by simp, hnew, hnodup⟩

/-- **The fields of an object, from the lexemes of its attributes.** -/
theorem checkObject_eq_ok_iff (h : Lexes cs ls) :
    checkObject owner cs = .ok fields ↔ AttributesOf (lexemeParts 0 ls) fields := by
  unfold checkObject
  rw [readFields_eq_ok_iff [] (lexes_splitTopLevel h) List.nodup_nil]
  constructor
  · rintro ⟨new, rfl, hnew, hn⟩
    refine ⟨?_, hnew, hn⟩
    rintro rfl
    cases hp : lexemeParts 0 ls with
    | nil => exact lexemeParts_ne_nil 0 ls hp
    | cons part parts =>
        rw [hp] at hnew
        cases hnew
  · rintro ⟨-, hnew, hn⟩
    exact ⟨fields, rfl, hnew, hn⟩

/-! ### Elements -/

theorem elementOf_of_readElement {type : DeclaredType} {e : Element} (h : Lexes cs ls)
    (he : readElement type cs = .ok e) : ElementOf type ls e := by
  unfold readElement at he
  split at he
  · next hs =>
      cases he
      cases denotes_of_rightSide h hs
      exact .variable type _
  · next p _ hp _ =>
      rw [DeclaredType.eq_of_primitive? hp]
      obtain ⟨v, hv, rfl⟩ := map_eq_ok.1 (mapError_eq_ok.1 he)
      exact .literal ((checkAssignable_eq_ok_iff h).1 hv)
  · next hp hs =>
      cases he
      cases denotes_of_rightSide h hs
      exact .null hp
  · cases he

theorem readElement_of_elementOf {type : DeclaredType} {e : Element} (h : Lexes cs ls)
    (he : ElementOf type ls e) : readElement type cs = .ok e := by
  unfold readElement
  cases he with
  | «variable» type name =>
      rw [rightSide_plain h (by simp)]
      cases type.primitive? <;> rfl
  | @literal p ls v ha =>
      have hv := (checkAssignable_eq_ok_iff h).2 ha
      split
      · next hs =>
          cases denotes_of_rightSide h hs
          exact absurd ha not_assignable_ident
      · next hp _ =>
          cases hp
          rw [hv]
          rfl
      · next hp _ => cases hp
      · next hp _ _ => cases hp
  | null hn => rw [rightSide_plain h (by simp), hn]; rfl

theorem readElements_eq_ok_iff (h : List.Forall₂ Lexes parts lexed) (index : Nat) :
    readElements typeName index parts = .ok es ↔
      List.Forall₂ (ElementOf (.ofName typeName)) lexed es := by
  induction h generalizing index es with
  | nil =>
      rw [readElements, Except.ok.injEq, List.forall₂_nil_left_iff, eq_comm]
  | @cons part ls parts lexed hpart _ ih =>
      simp only [readElements, bind_eq_ok, mapError_eq_ok, return_eq_ok]
      constructor
      · rintro ⟨e, he, es, hes, rfl⟩
        exact .cons (elementOf_of_readElement hpart he) ((ih _).1 hes)
      · intro hall
        cases hall with
        | cons he hes => exact ⟨_, readElement_of_elementOf hpart he, _, (ih _).2 hes, rfl⟩

/-- **The elements of an array, from their lexemes.** -/
theorem checkArray_eq_ok_iff (h : Lexes cs ls) :
    checkArray typeName cs = .ok es ↔
      List.Forall₂ (ElementOf (.ofName typeName)) (lexemeParts 0 ls) es :=
  readElements_eq_ok_iff (lexes_splitTopLevel h) 1

end Lists

/-! ### Declarations -/

variable {i : Initializer} {d : Declaration} {td : TypedDeclaration}

theorem charLiteral_of_assignable (h : Assignable .char ls v) :
    ∃ s c, ls = [.charLiteral s] ∧ s.toList = [c] := by
  cases h with
  | literal h =>
      cases h with
      | char hc => exact ⟨_, _, rfl, hc⟩
      | integer _ _ hn =>
          obtain ⟨range, hr, -⟩ := hn
          cases hr
      | decimal hc _ _ _ => cases hc
  | char _ hc => exact ⟨_, _, rfl, hc⟩

/-- What a scalar declaration puts into its slot is declared by its lexemes. -/
theorem declares_scalar (h : Lexes text vs)
    (hc : typeName = "char" → ∃ s c, vs = [.charLiteral s] ∧ s.toList = [c])
    (hi : scalarInitializer typeName text = .ok i) :
    Declares (Shape.scalar typeName name vs).lexemes ⟨name, i⟩ := by
  simp only [scalarInitializer, bind_eq_ok, mapError_eq_ok, DeclaredType.primitive?_ofName] at hi
  obtain ⟨side, hside, hi⟩ := hi
  have hd := denotes_of_rightSide h hside
  split at hi
  · cases hi
    cases hd
    refine .copy fun ht => ?_
    obtain ⟨s, c, he, -⟩ := hc ht
    cases he
  · next p _ hp _ =>
      obtain rfl := Primitive.ofName?_eq_some_iff.1 hp
      obtain ⟨v, hv, rfl⟩ := map_eq_ok.1 (mapError_eq_ok.1 hi)
      exact .scalar ((checkAssignable_eq_ok_iff h).1 hv)
  · next hp =>
      cases hi
      cases hd
      rw [DeclaredType.ofName_eq_object hp]
      exact .null hp
  · cases hi

theorem scalarInitializer_of_assignable (h : Lexes text vs) (ha : Assignable p vs v) :
    scalarInitializer p.name text = .ok (.scalar p v) := by
  have hstart := fun l hl => ((atoms_assignable ha).head? l hl).2
  simp only [scalarInitializer, bind_eq_ok, mapError_eq_ok, DeclaredType.primitive?_ofName,
    Primitive.ofName?_name]
  have hside := rightSide_plain h fun he => hstart _ he rfl
  refine ⟨_, hside, ?_⟩
  split
  · next hs =>
      rw [hs] at hside
      cases denotes_of_rightSide h hside
      exact absurd ha not_assignable_ident
  · next hp _ =>
      cases hp
      rw [(checkAssignable_eq_ok_iff h).2 ha]
      rfl
  · next hp _ => cases hp
  · next hp _ _ => cases hp

theorem objectInitializer_eq_ok_iff {constructor? : Option String} (h : Lexes text inner) :
    objectInitializer typeName constructor? text = .ok i ↔
      Primitive.ofName? typeName = none ∧ (∀ c ∈ constructor?, c = typeName) ∧
        ∃ fields, AttributesOf (lexemeParts 0 inner) fields ∧ i = .object typeName fields := by
  have hfields : (checkObject typeName text).map (.object typeName) = .ok i ↔
      ∃ fields, AttributesOf (lexemeParts 0 inner) fields ∧ i = .object typeName fields := by
    rw [map_eq_ok]
    exact exists_congr fun fields => and_congr (checkObject_eq_ok_iff h) eq_comm
  unfold objectInitializer
  by_cases ht : Primitive.ofName? typeName = none
  · rw [if_neg (by simp [ht]), ← hfields]
    by_cases hc : ∀ c ∈ constructor?, c = typeName
    · have hnone : constructor?.filter (· ≠ typeName) = none := by
        cases constructor? with
        | none => rfl
        | some c => simp [hc c rfl]
      rw [hnone]
      exact ⟨fun h => ⟨ht, hc, h⟩, fun h => h.2.2⟩
    · refine ⟨fun hi => ?_, fun h => absurd h.2.1 hc⟩
      split at hi
      · cases hi
      · next hnone =>
          refine absurd (fun c hmem => ?_) hc
          simpa using Option.filter_eq_none_iff.1 hnone c hmem
  · rw [if_pos (by simpa [Option.isSome_iff_ne_none] using ht)]
    exact ⟨fun h => (by cases h), fun h => absurd h.1 ht⟩

/-- **What is accepted is in the grammar.** -/
theorem declares_of_initializer {shape : Shape} (hp : shape.Proper) (hw : shape.Written d)
    (hi : initializer d = .ok i) : Declares shape.lexemes ⟨d.name, i⟩ := by
  cases hw with
  | scalar h =>
      cases hp with
      | scalar _ _ _ hc => exact declares_scalar h hc hi
  | @object typeName name constructor? inner text h =>
      simp only [initializer, mapError_eq_ok, objectInitializer_eq_ok_iff h] at hi
      obtain ⟨ht, hc, fields, hf, rfl⟩ := hi
      have hjoin := commaList_lexemeParts 0 inner
      cases constructor? with
      | none =>
          have hd := @Declares.object _ name _ _ ht hf
          rwa [hjoin] at hd
      | some c =>
          obtain rfl := hc c rfl
          have hd := @Declares.construct _ name _ _ ht hf
          rwa [hjoin] at hd
  | @array typeName name inner text h =>
      simp only [initializer, mapError_eq_ok, map_eq_ok, checkArray_eq_ok_iff h] at hi
      obtain ⟨es, he, rfl⟩ := hi
      have hne : es ≠ [] := by
        rintro rfl
        exact lexemeParts_ne_nil 0 inner (List.forall₂_nil_right_iff.1 he)
      have hd := @Declares.array _ name _ _ hne he
      rwa [commaList_lexemeParts 0 inner] at hd

/-- The attributes of an object are a list of attributes as it is read. -/
theorem AttributesOf.isAttributeList {attributes : List (List Lexeme)}
    (h : AttributesOf attributes fields) :
    IsAttributeList (commaList attributes) ∧ lexemeParts 0 (commaList attributes) = attributes := by
  have hne : attributes ≠ [] := by
    rintro rfl
    exact h.ne_nil (List.forall₂_nil_left_iff.1 h.each)
  have hflat := forall_mem_of_forall₂ h.each fun _ _ => isFlat_of_attributeOf
  have hattr := forall_mem_of_forall₂ h.each fun _ _ => isAttribute_of_attributeOf
  have hparts := lexemeParts_commaList hne hflat
  refine ⟨⟨nested_commaList .round hflat, commaList_ne_nil hne fun part hp => ?_, ?_⟩, hparts⟩
  · obtain ⟨typeName, name, value, rfl, -⟩ := hattr part hp
    simp [attributeLexemes]
  · rwa [hparts]

theorem objectInitializer_of_attributesOf {constructor? : Option String}
    {attributes : List (List Lexeme)} (h : Lexes text (commaList attributes))
    (ht : Primitive.ofName? typeName = none) (hc : ∀ c ∈ constructor?, c = typeName)
    (ha : AttributesOf attributes fields) :
    objectInitializer typeName constructor? text = .ok (.object typeName fields) := by
  refine (objectInitializer_eq_ok_iff h).2 ⟨ht, hc, fields, ?_, rfl⟩
  rwa [ha.isAttributeList.2]

/-- The elements of an array are a list of elements as it is read. -/
theorem isElementList_of_elementOf {type : DeclaredType} {elements : List (List Lexeme)}
    (hne : es ≠ []) (he : List.Forall₂ (ElementOf type) elements es) :
    (Nested .curly 0 (commaList elements) ∧ commaList elements ≠ [] ∧
      ∀ part ∈ elements, part ≠ []) ∧ lexemeParts 0 (commaList elements) = elements := by
  have hne' : elements ≠ [] := by
    rintro rfl
    exact hne (List.forall₂_nil_left_iff.1 he)
  have hatoms := forall_mem_of_forall₂ he fun _ _ => atoms_element
  have hflat : ∀ part ∈ elements, ∀ l ∈ part, l.isFlat = true :=
    fun part hp l hl => isFlat_of_isAtom ((hatoms part hp).all l hl)
  have hparts : ∀ part ∈ elements, part ≠ [] := fun part hp => (hatoms part hp).ne_nil
  exact ⟨⟨nested_commaList .curly hflat, commaList_ne_nil hne' hparts, hparts⟩,
    lexemeParts_commaList hne' hflat⟩

/-- **What is in the grammar has a proper shape, with parts that are typed as declared.** -/
theorem exists_shape_of_declares (h : Declares ls td) : ∃ shape : Shape, ls = shape.lexemes ∧
    shape.Proper ∧ ∀ d, shape.Written d → d.name = td.name ∧ initializer d = .ok td.initializer := by
  cases h with
  | @scalar p name vs v ha =>
      have hatoms := atoms_assignable ha
      refine ⟨.scalar p.name name vs, rfl, .scalar hatoms.isValue hatoms.ne_nil hatoms.head? ?_, ?_⟩
      · intro hc
        obtain rfl : p = .char := by cases p <;> first | rfl | exact absurd hc (by decide)
        exact charLiteral_of_assignable ha
      · rintro _ ⟨htext⟩
        exact ⟨rfl, scalarInitializer_of_assignable htext ha⟩
  | @copy typeName name source ht =>
      have hatoms : Atoms [.ident source] := atoms_singleton rfl
      refine ⟨.scalar typeName name [.ident source], rfl,
        .scalar hatoms.isValue hatoms.ne_nil hatoms.head? fun hc => absurd hc ht, ?_⟩
      rintro _ ⟨htext⟩
      refine ⟨rfl, ?_⟩
      simp only [initializer, scalarInitializer, bind_eq_ok, mapError_eq_ok]
      refine ⟨_, rightSide_plain htext (by simp), ?_⟩
      cases (DeclaredType.ofName typeName).primitive? <;> rfl
  | @null typeName name ht =>
      have hatoms : Atoms [.keyword .null] := atoms_singleton rfl
      refine ⟨.scalar typeName name [.keyword .null], rfl,
        .scalar hatoms.isValue hatoms.ne_nil hatoms.head? ?_, ?_⟩
      · rintro rfl
        cases ht
      · rintro _ ⟨htext⟩
        refine ⟨rfl, ?_⟩
        simp only [initializer, scalarInitializer, bind_eq_ok, mapError_eq_ok]
        refine ⟨_, rightSide_plain htext (by simp), ?_⟩
        rw [DeclaredType.primitive?_ofName, ht, DeclaredType.ofName_eq_object ht]
        rfl
  | @object typeName name attributes fields ht ha =>
      refine ⟨.object typeName name none _, rfl, .object ha.isAttributeList.1, ?_⟩
      rintro _ (_ | htext)
      refine ⟨rfl, mapError_eq_ok.2 (objectInitializer_of_attributesOf htext ht ?_ ha)⟩
      exact fun c hc => by cases hc
  | @construct typeName name attributes fields ht ha =>
      refine ⟨.object typeName name (some typeName) _, rfl, .object ha.isAttributeList.1, ?_⟩
      rintro _ (_ | htext)
      refine ⟨rfl, mapError_eq_ok.2 (objectInitializer_of_attributesOf htext ht ?_ ha)⟩
      exact fun c hc => (Option.some.inj hc).symm
  | @array typeName name elements es hne he =>
      obtain ⟨⟨hn, hsome, hfull⟩, hparts⟩ := isElementList_of_elementOf hne he
      refine ⟨.array typeName name _, rfl, .array hn hsome (by rwa [hparts]), ?_⟩
      rintro _ (_ | _ | htext)
      refine ⟨rfl, mapError_eq_ok.2 (map_eq_ok.2 ⟨es, (checkArray_eq_ok_iff htext).2 ?_, rfl⟩)⟩
      rwa [hparts]

/-- A line with the lexemes of a declaration is accepted, and its initializer is the one declared. -/
theorem process_of_declares (h : Lexes cs ls) (hd : Declares ls td) : process cs = .ok td := by
  obtain ⟨shape, rfl, hp, hw⟩ := exists_shape_of_declares hd
  obtain ⟨d, hc, hwritten⟩ := checkDeclaration_complete h hp
  obtain ⟨hname, hi⟩ := hw d hwritten
  simp only [process, bind_eq_ok, mapError_eq_ok, return_eq_ok]
  exact ⟨d, hc, _, hi, by rw [hname]⟩

/-- A line that is accepted has the lexemes of a declaration. -/
theorem declares_of_process (h : process cs = .ok td) : ∃ ls, Lexes cs ls ∧ Declares ls td := by
  simp only [process, bind_eq_ok, mapError_eq_ok, return_eq_ok] at h
  obtain ⟨d, hc, i, hi, rfl⟩ := h
  obtain ⟨shape, hl, hp, hw⟩ := checkDeclaration_sound hc
  exact ⟨_, hl, declares_of_initializer hp hw hi⟩

/-- **The declaration gate accepts exactly its grammar.**  A line is accepted as a declaration if and
only if it can be read and its lexemes are those of that declaration. -/
theorem process_eq_ok_iff_declares (line : List Char) (d : TypedDeclaration) :
    process line = .ok d ↔ ∃ ls, lexemes? line = some ls ∧ Declares ls d := by
  simp only [lexemes?_eq_some_iff]
  exact ⟨declares_of_process, fun ⟨_, hl, hd⟩ => process_of_declares hl hd⟩

end StackHeap.Typing
