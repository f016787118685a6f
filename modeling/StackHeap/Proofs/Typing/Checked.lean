import Mathlib.Data.List.Nodup
import StackHeap.Proofs.Typing.Holds
import StackHeap.Typing.Declaration

/-! # What the typing checks establish

* **Literals.**  What is typed against a primitive type is one of its values
  (`holds_of_checkPrimitive`), and so is what is widened for storage (`holds_of_checkAssignable`).
* **Objects** have at least one field, fields of distinct names, and values of the types of their
  fields (`ProperFields`).
* **Arrays** have at least one element, and every element is a value of the element type, null, or a
  variable to be looked up later (`ProperElements`).
* **Declared types** are primitive types, object categories, and arrays of these
  (`DeclaredType.IsBasic`): there are no arrays of arrays. -/

namespace StackHeap

/-! ### Checks that pass -/

section Except

variable {ε ε' α β : Type}

theorem bind_eq_ok {x : Except ε α} {f : α → Except ε β} {b : β} :
    x >>= f = .ok b ↔ ∃ a, x = .ok a ∧ f a = .ok b := by
  cases x <;> simp [bind, Except.bind]

theorem map_eq_ok {x : Except ε α} {f : α → β} {b : β} :
    x.map f = .ok b ↔ ∃ a, x = .ok a ∧ f a = b := by
  cases x <;> simp [Except.map]

theorem mapError_eq_ok {x : Except ε α} {f : ε → ε'} {a : α} :
    x.mapError f = .ok a ↔ x = .ok a := by
  cases x <;> simp [Except.mapError]

theorem return_eq_ok {a b : α} : (pure a : Except ε α) = .ok b ↔ a = b := by
  simp [pure, Except.pure]

end Except

namespace Typing

open Number Command

variable {p type : Primitive} {v : Value}

/-! ### Literals -/

theorem holds_of_checkInteger {range : Int × Int} {literal : String} {negative : Bool}
    {digits : List Char} (hr : type.integerRange? = some range)
    (h : checkInteger type range literal negative digits = .ok v) : type.Holds v := by
  unfold checkInteger at h
  obtain ⟨bits, hb, rfl⟩ := Option.map_eq_some_iff.1 hr
  split at h
  · cases h
  · split at h
    · cases h
    · next magnitude _ =>
        dsimp only at h
        generalize (if negative then -(magnitude : Int) else magnitude) = n at h
        by_cases hn : n < -(pow2 (bits - 1) : Int) ∨ (pow2 (bits - 1) : Int) - 1 < n
        · rw [if_pos hn] at h
          cases h
        · rw [if_neg hn, Primitive.bmod_eq_of_bits? hb (by omega) (by omega)] at h
          cases h
          exact .integral hb (by omega) (by omega)

theorem holds_of_checkFloat {ceiling : Magnitude} {literal : String} {negative : Bool}
    {digits : List Char} (hc : type.ceiling? = some ceiling)
    (h : checkFloat type ceiling literal negative digits = .ok v) : type.Holds v := by
  unfold checkFloat at h
  split at h
  · cases h
  · dsimp only at h
    split at h
    · next d _ hw =>
        cases h
        generalize d.toBinary64 negative = x at hw
        cases x with
        | finite s m => exact .floating s hc (of_decide_eq_true hw)
        | nan => cases hw
        | infinite s => cases hw
    · cases h

theorem holds_of_checkLexemes {literal : String} {ls : List Lexeme}
    (h : checkLexemes type literal ls = .ok v) : type.Holds v := by
  unfold checkLexemes at h
  split at h
  · cases h
  · cases h
    exact .boolean true
  · cases h
    exact .boolean false
  · split at h
    · cases h
      exact .char _
    · cases h
  · cases h
    exact .string _
  · split at h
    · next hr => exact holds_of_checkInteger hr h
    · next hc => exact holds_of_checkFloat hc h
    · cases h

/-- A literal typed against a primitive type is a value of that type. -/
theorem holds_of_checkPrimitive {cs : List Char} (h : checkPrimitive type cs = .ok v) :
    type.Holds v := by
  unfold checkPrimitive at h
  dsimp only at h
  split at h
  · cases h
  · exact holds_of_checkLexemes h

/-- A literal typed for storage is a value of the type it is stored in. -/
theorem holds_of_checkAssignable {cs : List Char} (h : checkAssignable type cs = .ok v) :
    type.Holds v := by
  unfold checkAssignable at h
  split at h
  · next hv =>
      cases h
      exact holds_of_checkPrimitive hv
  · cases h
  · split at h
    · next natural _ =>
        split at h
        · next ha =>
            obtain ⟨w, hw, rfl⟩ := map_eq_ok.1 h
            exact (holds_of_checkPrimitive hw).widen ha.2
        · cases h
    · cases h

/-! ### Objects -/

/-- Fields of an object: at least one, no two of one name, each with a value of its type. -/
structure ProperFields (fields : List Field) : Prop where
  ne_nil : fields ≠ []
  names : (fields.map Field.name).Nodup
  holds : ∀ f ∈ fields, f.type.Holds f.value

theorem ProperFields.addressFree {fields : List Field} (h : ProperFields fields) :
    ∀ v ∈ fields.map (·.value), v.referent? = none := by
  intro v hv
  obtain ⟨f, hf, rfl⟩ := List.mem_map.1 hv
  exact Value.referent?_eq_none (h.holds f hf).isReference_eq_false

theorem holds_of_readField {cs : List Char} {f : Field} (h : readField cs = .ok f) :
    f.type.Holds f.value := by
  unfold readField at h
  simp only [bind_eq_ok, mapError_eq_ok, return_eq_ok] at h
  obtain ⟨a, -, t, -, v, hv, rfl⟩ := h
  exact holds_of_checkPrimitive hv

/-- The fields in `done` come first, and every part adds one. -/
theorem readFields_spec {owner : String} {done fields : List Field} {parts : List (List Char)}
    (h : readFields owner done parts = .ok fields) (hn : (done.map Field.name).Nodup)
    (hh : ∀ f ∈ done, f.type.Holds f.value) :
    done.length + parts.length = fields.length ∧ (fields.map Field.name).Nodup ∧
      ∀ f ∈ fields, f.type.Holds f.value := by
  induction parts generalizing done with
  | nil =>
      cases h
      exact ⟨rfl, hn, hh⟩
  | cons part parts ih =>
      simp only [readFields, bind_eq_ok, mapError_eq_ok] at h
      obtain ⟨f, hf, h⟩ := h
      split at h
      · cases h
      · next hany =>
          have hnew : f.name ∉ done.map Field.name := by
            intro hm
            obtain ⟨g, hg, hgf⟩ := List.mem_map.1 hm
            exact hany (List.any_eq_true.2 ⟨g, hg, decide_eq_true hgf⟩)
          have hrest := ih h (by
            rw [List.map_append, List.nodup_append']
            refine ⟨hn, List.nodup_singleton _, ?_⟩
            intro x hx hxf
            rw [List.mem_singleton.1 hxf] at hx
            exact hnew hx) (by
            intro g hg
            rcases List.mem_append.1 hg with hg | hg
            · exact hh g hg
            · rw [List.mem_singleton.1 hg]
              exact holds_of_readField hf)
          rw [List.length_append, List.length_singleton] at hrest
          rw [List.length_cons]
          exact ⟨by omega, hrest.2⟩

/-- A scan yields at least one part. -/
theorem parts_ne_nil (s : Scan) (cs : List Char) : s.parts cs ≠ [] := by
  induction cs generalizing s with
  | nil => exact List.cons_ne_nil _ _
  | cons c cs ih =>
      rw [Scan.parts]
      split
      · exact List.cons_ne_nil _ _
      · exact fun h => ih _ (List.modifyHead_eq_nil_iff.1 h)

/-- A list has at least one part. -/
theorem splitTopLevel_ne_nil (cs : List Char) : splitTopLevel cs ≠ [] := parts_ne_nil _ cs

theorem properFields_of_checkObject {owner : String} {cs : List Char} {fields : List Field}
    (h : checkObject owner cs = .ok fields) : ProperFields fields := by
  obtain ⟨hlen, hn, hh⟩ := readFields_spec h List.nodup_nil fun f hf => absurd hf List.not_mem_nil
  refine ⟨?_, hn, hh⟩
  rintro rfl
  exact splitTopLevel_ne_nil cs (List.eq_nil_of_length_eq_zero (by simpa using hlen))

/-! ### Arrays -/

/-- A value that is written for an element: one of a primitive element type, or null. -/
def WrittenFor (type : DeclaredType) (v : Value) : Prop :=
  match type with
  | .primitive p => p.Holds v
  | _ => v = .null

theorem WrittenFor.referent?_eq_none {type : DeclaredType} (h : WrittenFor type v) :
    v.referent? = none := by
  cases type with
  | primitive p => exact Value.referent?_eq_none (Primitive.Holds.isReference_eq_false h)
  | object category => rw [show v = .null from h]; rfl
  | array element => rw [show v = .null from h]; rfl

/-- Elements of an array: at least one, and what is written down fits the element type. -/
structure ProperElements (type : DeclaredType) (elements : List Element) : Prop where
  ne_nil : elements ≠ []
  written : ∀ v, Element.value v ∈ elements → WrittenFor type v

theorem writtenFor_of_readElement {type : DeclaredType} {cs : List Char}
    (h : readElement type cs = .ok (.value v)) : WrittenFor type v := by
  unfold readElement at h
  split at h
  · cases h
  · next hp _ =>
      rw [DeclaredType.eq_of_primitive? hp]
      obtain ⟨w, hw, he⟩ := map_eq_ok.1 (mapError_eq_ok.1 h)
      cases he
      exact holds_of_checkAssignable hw
  · next hp _ =>
      cases h
      cases type with
      | primitive p => cases hp
      | _ => rfl
  · cases h

theorem readElements_spec {elementType : String} {index : Nat} {parts : List (List Char)}
    {elements : List Element} (h : readElements elementType index parts = .ok elements) :
    elements.length = parts.length ∧
      ∀ v, Element.value v ∈ elements → WrittenFor (.ofName elementType) v := by
  induction parts generalizing index elements with
  | nil =>
      cases h
      exact ⟨rfl, fun v hv => absurd hv List.not_mem_nil⟩
  | cons part parts ih =>
      simp only [readElements, bind_eq_ok, mapError_eq_ok, return_eq_ok] at h
      obtain ⟨e, he, es, hes, rfl⟩ := h
      obtain ⟨hlen, hw⟩ := ih hes
      refine ⟨by rw [List.length_cons, List.length_cons, hlen], fun v hv => ?_⟩
      rcases List.mem_cons.1 hv with rfl | hv
      · exact writtenFor_of_readElement he
      · exact hw v hv

theorem properElements_of_checkArray {elementType : String} {cs : List Char}
    {elements : List Element} (h : checkArray elementType cs = .ok elements) :
    ProperElements (.ofName elementType) elements := by
  obtain ⟨hlen, hw⟩ := readElements_spec h
  refine ⟨?_, hw⟩
  rintro rfl
  exact splitTopLevel_ne_nil cs (List.eq_nil_of_length_eq_zero hlen.symm)

end Typing

end StackHeap
