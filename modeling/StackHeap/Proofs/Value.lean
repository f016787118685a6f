import StackHeap.Store.Stack

/-! # Values and references

Whether a value is a reference, and which address it holds, does not depend on the form in which a
primitive type uses it; and a type accepts only what is of its own kind. -/

namespace StackHeap

namespace Value

theorem widen_int (p : Primitive) (n : Int) :
    (int n).widen p = if p.isFloating then float (.ofInt n) else int n := rfl

theorem widen_char (p : Primitive) (c : Char) :
    (char c).widen p =
      if p.isFloating then float (.ofNat c.toNat)
      else if p.isIntegral then int c.toNat
      else char c := rfl

theorem referent?_eq_none {v : Value} (h : v.isReference = false) : v.referent? = none := by
  cases v with
  | objectRef a => cases h
  | arrayRef a => cases h
  | _ => rfl

@[simp] theorem referent?_widen (p : Primitive) (v : Value) :
    (v.widen p).referent? = v.referent? := by
  cases v with
  | int n =>
      rw [widen_int]
      split <;> rfl
  | char c =>
      rw [widen_char]
      split
      · rfl
      · split <;> rfl
  | _ => rfl

@[simp] theorem isReference_widen (p : Primitive) (v : Value) :
    (v.widen p).isReference = v.isReference := by
  cases v with
  | int n =>
      rw [widen_int]
      split <;> rfl
  | char c =>
      rw [widen_char]
      split
      · rfl
      · split <;> rfl
  | _ => rfl

end Value

namespace Store.Slot

@[simp] theorem referent?_valueAs (x : Slot) (type : DeclaredType) :
    (x.valueAs type).referent? = x.value.referent? := by
  unfold valueAs
  split
  · exact Value.referent?_widen _ _
  · rfl

@[simp] theorem isReference_valueAs (x : Slot) (type : DeclaredType) :
    (x.valueAs type).isReference = x.value.isReference := by
  unfold valueAs
  split
  · exact Value.isReference_widen _ _
  · rfl

end Store.Slot

namespace DeclaredType

/-- A type accepts types of its kind. -/
theorem isReference_eq_of_accepts {t s : DeclaredType} (h : t.accepts s = true) :
    t.isReference = s.isReference := by
  cases t <;> cases s <;> first | rfl | cases h

theorem eq_of_primitive? {t : DeclaredType} {p : Primitive} (h : t.primitive? = some p) :
    t = .primitive p := by
  cases t with
  | primitive q => rw [Option.some.inj h]
  | object category => cases h
  | array element => cases h

end DeclaredType

end StackHeap
