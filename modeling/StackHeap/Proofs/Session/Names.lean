import StackHeap.Proofs.Command.Kinds
import StackHeap.Proofs.Session.Assigning
import StackHeap.Proofs.Store.Named

/-! # The names that lines bring along

Every name that a line brings into the memory stands in it as an identifier: the variable and the
types of a declaration, the fields of an object, and the name of a frame that is entered.  So the
operation that is planned for a line is named (`named_of_plan`).  The same holds of the names that an
operation relies on, by which it finds variables (`isIdentifier_of_mem_givenNames`). -/

namespace StackHeap

open Command Store Typing

/-- What an operation names besides what it brings along: the variables that it finds by their names,
and the category that it assigns a new object of. -/
def Store.Operation.givenNames : Operation → List String
  | declareCopy _ _ _ source => [source]
  | assign _ target source => [target, source]
  | assignLiteral _ target _ _ => [target]
  | assignNull _ target => [target]
  | assignNew _ target category _ => [target, category]
  | _ => []

namespace Session

variable {cs : List Char} {ls : List Lexeme} {m : Memory} {op : Operation}

/-- The fields of an object are named in its attributes. -/
theorem named_of_attributesOf {attributes : List (List Lexeme)} {fields : List Field}
    (h : AttributesOf attributes fields)
    (hi : ∀ name, .ident name ∈ commaList attributes → IsIdentifier name) :
    (Contents.object fields).Named := by
  intro f hf
  obtain ⟨part, hp, ha⟩ := exists_mem_of_forall₂ h.each hf
  refine hi f.name (mem_commaList_of_mem hp ?_)
  cases ha <;> simp

theorem ident_mem_of_declares {d : TypedDeclaration} (h : Declares ls d) : .ident d.name ∈ ls := by
  cases h <;> simp

/-- What is declared is named in the line. -/
theorem named_of_declares {d : TypedDeclaration} (h : Declares ls d)
    (hi : ∀ name, .ident name ∈ ls → IsIdentifier name) (id : Nat) :
    (initialization id d.name d.initializer).Named := by
  have hname := hi d.name (ident_mem_of_declares h)
  cases h with
  | scalar _ => exact hname
  | @copy typeName _ _ _ => exact ⟨hname, DeclaredType.legible_ofName (hi typeName (by simp))⟩
  | @null typeName _ ht => exact ⟨hname, hi typeName (by simp), ht⟩
  | @object typeName _ _ _ ht ha =>
      refine ⟨hname, ⟨hi typeName (by simp), ht⟩, named_of_attributesOf ha fun name hmem => ?_⟩
      exact hi name (by simp [hmem])
  | @construct typeName _ _ _ ht ha =>
      refine ⟨hname, ⟨hi typeName (by simp), ht⟩, named_of_attributesOf ha fun name hmem => ?_⟩
      exact hi name (by simp [hmem])
  | @array typeName _ _ _ _ _ => exact ⟨hname, DeclaredType.legible_ofName (hi typeName (by simp))⟩

/-- What is assigned is named in the line. -/
theorem named_of_assigns {id : Nat} {target : String} {type : DeclaredType}
    (h : Assigns id target type ls op) (hi : ∀ name, .ident name ∈ ls → IsIdentifier name) :
    op.Named := by
  cases h with
  | construct hc ha => exact named_of_attributesOf ha fun name hmem => hi name (by simp [hmem])
  | _ => trivial

/-- An operation as it was read, in frame `id`.  What the lexemes of a declaration or of a value name is
spelled as an identifier, and so is the variable that is assigned to. -/
inductive ReadFrom (id : Nat) : Operation → Prop where
  | enter {name : String} (hn : IsIdentifier name) : ReadFrom id (.enter name)
  | leave : ReadFrom id .leave
  | assignment {target : String} {type : DeclaredType} {ls : List Lexeme} {op : Operation}
      (ht : IsIdentifier target) (hi : ∀ name, .ident name ∈ ls → IsIdentifier name)
      (h : Assigns id target type ls op) : ReadFrom id op
  | declaration {ls : List Lexeme} {d : TypedDeclaration}
      (hi : ∀ name, .ident name ∈ ls → IsIdentifier name) (h : Declares ls d) :
      ReadFrom id (initialization id d.name d.initializer)

theorem readFrom_of_plan (h : plan cs m = .ok op) : ReadFrom m.stack.current.id op := by
  simp only [plan, bind_eq_ok, mapError_eq_ok] at h
  obtain ⟨kind, hk, h⟩ := h
  cases kind with
  | enter name =>
      cases h
      obtain ⟨ls, hl, hc⟩ := exists_classifies hk (by simp)
      cases hc
      exact .enter (isIdentifier_of_mem hl (by simp))
  | leave =>
      cases h
      exact .leave
  | assignment target value =>
      simp only [bind_eq_ok, mapError_eq_ok] at h
      obtain ⟨t, -, side, hs, h⟩ := h
      obtain ⟨ls, hl, hc⟩ := exists_classifies hk (by simp)
      cases hc with
      | assignment _ _ _ htext =>
          exact .assignment (isIdentifier_of_mem hl (by simp)) (fun name => isIdentifier_of_mem htext)
            (assigns_of_denotes (denotes_of_rightSide htext hs) h)
  | declaration =>
      simp only [bind_eq_ok, mapError_eq_ok, return_eq_ok] at h
      obtain ⟨d, hp, rfl⟩ := h
      obtain ⟨ls, hl, hd⟩ := declares_of_process hp
      exact .declaration (fun name => isIdentifier_of_mem hl) hd

/-- **The names that a line brings into the memory are identifiers.** -/
theorem named_of_plan (h : plan cs m = .ok op) : op.Named := by
  cases readFrom_of_plan h with
  | enter hn => exact hn
  | leave => trivial
  | assignment _ hi ha => exact named_of_assigns ha hi
  | declaration hi hd => exact named_of_declares hd hi _

/-- **The names of what a line relies on are identifiers.** -/
theorem isIdentifier_of_mem_givenNames (h : plan cs m = .ok op) :
    ∀ name ∈ op.givenNames, IsIdentifier name := by
  cases readFrom_of_plan h with
  | enter _ => exact List.forall_mem_nil _
  | leave => exact List.forall_mem_nil _
  | assignment ht hi ha =>
      cases ha with
      | «variable» source => simpa [Operation.givenNames] using ⟨ht, hi source (by simp)⟩
      | null => simpa [Operation.givenNames] using ht
      | @construct category _ _ _ _ =>
          simpa [Operation.givenNames] using ⟨ht, hi category (by simp)⟩
      | literal _ _ _ => simpa [Operation.givenNames] using ht
  | declaration hi hd =>
      cases hd with
      | @copy _ _ source _ => simpa [initialization, Operation.givenNames] using hi source (by simp)
      | _ => exact List.forall_mem_nil _

end Session

end StackHeap
