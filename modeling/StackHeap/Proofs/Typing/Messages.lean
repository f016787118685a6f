import StackHeap.Proofs.Command.Messages
import StackHeap.Proofs.Typing.Literals

/-! # What the typing checks tell

Errors of typing quote pieces of the line as they stand in it, never what they were decoded to: the
text of a literal, an attribute or an element, and the names of types and attributes.  The ranges of
types are numbers.

Each check has a lemma `tells_…`, as the readers have.  The last one is about whole declarations: what
keeps one from being made is told clearly, and the names in one that is made are clear
(`tells_process`). -/

namespace StackHeap.Typing

open Command Number Text

variable {source cs : List Char} {p : Primitive} {literal owner typeName : String}

theorem text_ofName (name : String) : (DeclaredType.ofName name).text = name := by
  unfold DeclaredType.ofName
  cases hp : Primitive.ofName? name with
  | none => rfl
  | some p => exact (Primitive.ofName?_eq_some_iff.1 hp).symm

/-! ### Literals -/

theorem clear_rangeTexts (p : Primitive) :
    Clear [] (rangeTexts p).1 ∧ Clear [] (rangeTexts p).2 := by
  cases p <;> decide +kernel

theorem clear_invalid (p : Primitive) (h : Clear source literal) :
    Clear source (LiteralError.invalid p literal).message := by
  have hname := clear_name p
  unfold LiteralError.message
  simp (disch := first | decide | assumption) [h, Clear.lift]

theorem clear_outOfRange (p : Primitive) (h : Clear source literal) :
    Clear source (LiteralError.outOfRange p literal).message := by
  have hname := clear_name p
  obtain ⟨hlow, hhigh⟩ := clear_rangeTexts p
  unfold LiteralError.message
  simp (disch := first | decide | assumption) [h, Clear.lift]

theorem clear_null (p : Primitive) : Clear source (LiteralError.null p).message := by
  have hname := clear_name p
  unfold LiteralError.message
  simp (disch := first | decide | assumption) [Clear.lift]

theorem tells_checkInteger (range : Int × Int) (h : Clear source literal) (negative : Bool)
    (digits : List Char) :
    Tells source LiteralError.message (fun _ => True)
      (checkInteger p range literal negative digits) := by
  unfold checkInteger
  split
  · exact clear_invalid p h
  · split
    · exact clear_outOfRange p h
    · next magnitude _ =>
        dsimp only
        generalize (if negative then -(magnitude : Int) else magnitude) = n
        split
        · exact clear_outOfRange p h
        · trivial

theorem tells_checkFloat (ceiling : Magnitude) (h : Clear source literal) (negative : Bool)
    (digits : List Char) :
    Tells source LiteralError.message (fun _ => True)
      (checkFloat p ceiling literal negative digits) := by
  unfold checkFloat
  split
  · exact clear_invalid p h
  · dsimp only
    split
    · trivial
    · exact clear_outOfRange p h

theorem tells_checkLexemes (h : Clear source literal) (ls : List Lexeme) :
    Tells source LiteralError.message (fun _ => True) (checkLexemes p literal ls) := by
  unfold checkLexemes
  split
  · exact clear_null p
  · trivial
  · trivial
  · split
    · trivial
    · exact clear_invalid _ h
  · trivial
  · split
    · exact tells_checkInteger _ h _ _
    · exact tells_checkFloat _ h _ _
    · exact clear_invalid p h

theorem tells_checkPrimitive (p : Primitive) (hcs : cs ⊆ source) :
    Tells source LiteralError.message (fun _ => True) (checkPrimitive p cs) := by
  have hliteral := clear_ofList (List.Subset.trans (trim_subset cs) hcs)
  unfold checkPrimitive
  dsimp only
  split
  · exact clear_invalid p hliteral
  · exact tells_checkLexemes hliteral _

/-- **What keeps a literal from being stored.** -/
theorem tells_checkAssignable (p : Primitive) (hcs : cs ⊆ source) :
    Tells source LiteralError.message (fun _ => True) (checkAssignable p cs) := by
  have hcheck := tells_checkPrimitive p hcs
  unfold checkAssignable
  split
  · trivial
  · exact clear_null _
  · next he =>
      rw [he] at hcheck
      split
      · split
        · exact (tells_checkPrimitive _ hcs).map fun _ _ => trivial
        · exact hcheck
      · exact hcheck

/-! ### Objects -/

theorem tells_attributeType {a : Attribute} (ha : a.ReadFrom source) :
    Tells source AttributeFault.message (fun _ => True) (attributeType a) := by
  unfold attributeType
  split
  · next name hname =>
      split
      · trivial
      · exact clear_between (by decide) (ha.typeName name hname).lift (by decide)
  · split
    · trivial
    · exact clear_between (by decide) (clear_ofList ha.value) (by decide)

theorem tells_readField (hcs : cs ⊆ source) :
    Tells source AttributeFault.message (fun f => Clear [] f.name) (readField cs) := by
  have hread : Tells source AttributeFault.message (Attribute.ReadFrom source)
      ((Attribute.ofText cs).mapError .malformed) := (tells_ofText hcs).mapError fun _ he => he
  refine hread.bind fun a ha => (tells_attributeType ha).bind fun type _ => ?_
  have hvalue : Tells source AttributeFault.message (fun _ => True)
      ((checkPrimitive type a.value).mapError .literal) :=
    (tells_checkPrimitive type ha.value).mapError fun _ he => he
  exact hvalue.bind fun _ _ => ha.name

theorem clear_invalidAttribute {text : String} {fault : AttributeFault} (ho : Clear source owner)
    (ht : Clear source text) (hf : Clear source fault.message) :
    Clear source (TypeError.invalidAttribute owner text fault).message := by
  unfold TypeError.message
  simp (disch := decide) [ho, ht, hf, Clear.lift]

theorem clear_duplicateAttribute {name : String} (ho : Clear source owner) (hn : Clear source name) :
    Clear source (TypeError.duplicateAttribute owner name).message := by
  unfold TypeError.message
  simp (disch := decide) [ho, hn, Clear.lift]

theorem tells_readFields (ho : Clear source owner) (done : List Field) {parts : List (List Char)}
    (hparts : ∀ part ∈ parts, part ⊆ source) :
    Tells source TypeError.message (fun _ => True) (readFields owner done parts) := by
  induction parts generalizing done with
  | nil => trivial
  | cons part parts ih =>
      rw [List.forall_mem_cons] at hparts
      have htext := clear_ofList (List.Subset.trans (trim_subset part) hparts.1)
      refine ((tells_readField hparts.1).mapError fun _ he =>
        clear_invalidAttribute ho htext he).bind fun field hfield => ?_
      split
      · exact clear_duplicateAttribute ho hfield.lift
      · exact ih _ hparts.2

/-- **What keeps an object from being made.** -/
theorem tells_checkObject (ho : Clear source owner) (hcs : cs ⊆ source) :
    Tells source TypeError.message (fun _ => True) (checkObject owner cs) :=
  tells_readFields ho [] fun _ hp => subset_of_mem_splitTopLevel hp hcs

/-! ### Arrays -/

/-- The name of a variable among elements is clear. -/
def ElementNamed : Element → Prop
  | .value _ => True
  | .variable name => Clear [] name

theorem tells_readElement (type : DeclaredType) (hcs : cs ⊆ source) :
    Tells source ElementFault.message ElementNamed (readElement type cs) := by
  have hside := tells_rightSide hcs
  unfold readElement
  split
  · next hok =>
      rw [hok] at hside
      exact hside
  · exact ((tells_checkAssignable _ hcs).map fun _ _ => trivial).mapError fun _ he => he
  · trivial
  · have htext := clear_ofList (List.Subset.trans (trim_subset cs) hcs)
    exact clear_between (by decide) htext (by decide)

theorem clear_invalidElement {fault : ElementFault} (ht : Clear source typeName) (index : Nat)
    (hf : Clear source fault.message) :
    Clear source (TypeError.invalidElement typeName index fault).message := by
  unfold TypeError.message
  simp (disch := decide) [ht, hf, Clear.lift]

theorem tells_readElements (ht : Clear source typeName) (index : Nat) {parts : List (List Char)}
    (hparts : ∀ part ∈ parts, part ⊆ source) :
    Tells source TypeError.message (fun es => ∀ e ∈ es, ElementNamed e)
      (readElements typeName index parts) := by
  induction parts generalizing index with
  | nil => exact List.forall_mem_nil _
  | cons part parts ih =>
      rw [List.forall_mem_cons] at hparts
      refine ((tells_readElement _ hparts.1).mapError fun _ he =>
        clear_invalidElement ht index he).bind fun e he => ?_
      exact (ih (index + 1) hparts.2).bind fun es hes => List.forall_mem_cons.2 ⟨he, hes⟩

/-- **What keeps an array from being made.** -/
theorem tells_checkArray (ht : Clear source typeName) (hcs : cs ⊆ source) :
    Tells source TypeError.message (fun es => ∀ e ∈ es, ElementNamed e) (checkArray typeName cs) :=
  tells_readElements ht 1 fun _ hp => subset_of_mem_splitTopLevel hp hcs

/-! ### Declarations -/

/-- The names in an initializer are clear. -/
def InitializerNamed : Initializer → Prop
  | .scalar _ _ => True
  | .null type => Clear [] type.text
  | .copy type variableName => Clear [] type.text ∧ Clear [] variableName
  | .object category _ => Clear [] category
  | .array elementType elements => Clear [] elementType.text ∧ ∀ e ∈ elements, ElementNamed e

theorem clear_malformed {e : SyntaxError} (h : Clear source e.message) :
    Clear source (InputError.malformed e).message :=
  clear_append.2 ⟨Clear.lift (by decide), h⟩

theorem clear_illTyped {e : TypeError} (h : Clear source e.message) :
    Clear source (InputError.illTyped e).message :=
  clear_append.2 ⟨Clear.lift (by decide), h⟩

theorem tells_scalarInitializer (ht : Clear [] typeName) (hcs : cs ⊆ source) :
    Tells source InputError.message InitializerNamed (scalarInitializer typeName cs) := by
  have htype : Clear [] (DeclaredType.ofName typeName).text := by rwa [text_ofName]
  refine ((tells_rightSide hcs).mapError fun _ he => clear_malformed he).bind fun side hside => ?_
  split
  · exact ⟨htype, hside⟩
  · exact ((tells_checkAssignable _ hcs).map fun _ _ => trivial).mapError fun _ he =>
      clear_illTyped he
  · exact htype
  · refine clear_illTyped ?_
    exact clear_between (by decide) ht.lift (by decide)

theorem tells_objectInitializer {constructor? : Option String} (ht : Clear [] typeName)
    (hc : ∀ s ∈ constructor?, Clear [] s) (hcs : cs ⊆ source) :
    Tells source TypeError.message InitializerNamed
      (objectInitializer typeName constructor? cs) := by
  unfold objectInitializer
  split
  · exact clear_between (by decide) ht.lift (by decide)
  · split
    · next constructed hf =>
        have hconstructed := hc constructed (Option.filter_eq_some_iff.1 hf).1
        unfold TypeError.message
        simp (disch := first | decide | assumption) [Tells, Clear.lift]
    · exact (tells_checkObject ht.lift hcs).map fun _ _ => ht

theorem tells_initializer {d : Declaration} (hd : d.ReadFrom source) :
    Tells source InputError.message InitializerNamed (initializer d) := by
  cases d with
  | scalar typeName name value => exact tells_scalarInitializer hd.1 hd.2.2
  | object typeName name constructor? attributes =>
      exact (tells_objectInitializer hd.1 hd.2.2.1 hd.2.2.2).mapError fun _ he => clear_illTyped he
  | array elementType name elements =>
      have htype : Clear [] (DeclaredType.ofName elementType).text := by
        rw [text_ofName]
        exact hd.1
      exact ((tells_checkArray hd.1.lift hd.2.2).map fun _ hes => ⟨htype, hes⟩).mapError fun _ he =>
        clear_illTyped he

theorem clear_name_of_readFrom {d : Declaration} (hd : d.ReadFrom source) : Clear [] d.name := by
  cases d <;> exact hd.2.1

/-- **What keeps a line from being a declaration that can be carried out.** -/
theorem tells_process (hcs : cs ⊆ source) :
    Tells source InputError.message (fun d => Clear [] d.name ∧ InitializerNamed d.initializer)
      (process cs) := by
  refine ((tells_checkDeclaration hcs).mapError fun _ he => clear_malformed he).bind fun d hd => ?_
  exact (tells_initializer hd).bind fun _ hi => ⟨clear_name_of_readFrom hd, hi⟩

end StackHeap.Typing
