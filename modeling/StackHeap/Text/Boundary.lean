import StackHeap.Text.Bytes

/-! # Character boundaries

A text can be cut at an offset in bytes only where a character starts or the text ends.  At such a
*boundary* a character can be put in, and the character that starts there can be taken out.  The
boundaries are the positions of the string (`isSome_splitAt?_iff`).

`offsetOf` finds the offset of a character by walking over the characters in front of it.  It is the
offset of an index among those at which characters start (`getD_charOffsets`).  Offsets found in
this way are boundaries (`insertAt?_offsetOf`), and unless they are the end of the text a character
starts there (`removeAt?_offsetOf`). -/

namespace StackHeap.Text

/-- The text in front of a boundary and the text behind it; none at any other offset. -/
def splitAt? : Nat → List Char → Option (List Char × List Char)
  | 0, cs => some ([], cs)
  | _ + 1, [] => none
  | n + 1, c :: cs =>
    if c.utf8Size ≤ n + 1 then
      (splitAt? (n + 1 - c.utf8Size) cs).map fun (front, back) => (c :: front, back)
    else none

/-- The text with a character put in at an offset; none unless that is a boundary. -/
def insertAt? (offset : Nat) (c : Char) (cs : List Char) : Option (List Char) :=
  (splitAt? offset cs).map fun (front, back) => front ++ c :: back

/-- The text without the character that starts at an offset; none if no character does. -/
def removeAt? (offset : Nat) (cs : List Char) : Option (List Char) :=
  match splitAt? offset cs with
  | some (front, _ :: back) => some (front ++ back)
  | _ => none

/-- The offsets at which the characters start of a text that starts at `offset`. -/
def charOffsets (offset : Nat) : List Char → List Nat
  | [] => []
  | c :: cs => offset :: charOffsets (offset + c.utf8Size) cs

/-- The offset of the character of an index, or that of the end of the text. -/
def offsetOf : List Char → Nat → Nat
  | [], _ => 0
  | _ :: _, 0 => 0
  | c :: cs, index + 1 => c.utf8Size + offsetOf cs index

theorem splitAt?_byteLength (front back : List Char) :
    splitAt? (byteLength front) (front ++ back) = some (front, back) := by
  induction front with
  | nil => cases back <;> rfl
  | cons c front ih =>
    have := c.utf8Size_pos
    obtain ⟨k, hk⟩ : ∃ k, byteLength (c :: front) = k + 1 :=
      ⟨_, (Nat.succ_pred (by simp; omega)).symm⟩
    have hrest : byteLength (c :: front) - c.utf8Size = byteLength front := by
      rw [byteLength_cons, Nat.add_sub_cancel_left]
    have hle : c.utf8Size ≤ byteLength (c :: front) := Nat.le_add_right _ _
    rw [List.cons_append, hk, splitAt?, ← hk, if_pos hle, hrest, ih]
    rfl

theorem eq_of_splitAt? {n : Nat} {cs front back : List Char} :
    splitAt? n cs = some (front, back) → cs = front ++ back ∧ n = byteLength front := by
  intro h
  induction cs generalizing n front with
  | nil =>
    cases n with
    | zero => cases h; exact ⟨rfl, rfl⟩
    | succ n => cases h
  | cons c cs ih =>
    cases n with
    | zero => cases h; exact ⟨rfl, rfl⟩
    | succ n =>
      rw [splitAt?] at h
      split at h
      · next hle =>
        obtain ⟨⟨front', back'⟩, hrest, heq⟩ := Option.map_eq_some_iff.1 h
        cases heq
        obtain ⟨hcs, hn⟩ := ih hrest
        refine ⟨congrArg _ hcs, ?_⟩
        rw [byteLength_cons]
        omega
      · cases h

/-- The boundaries of a text are the positions of the string. -/
theorem isSome_splitAt?_iff {n : Nat} {cs : List Char} :
    (splitAt? n cs).isSome ↔ (⟨n⟩ : String.Pos.Raw).IsValid (String.ofList cs) := by
  simp only [String.Pos.Raw.isValid_ofList, utf8ByteSize_ofList]
  constructor
  · intro h
    obtain ⟨⟨front, back⟩, hsplit⟩ := Option.isSome_iff_exists.1 h
    obtain ⟨hcs, hn⟩ := eq_of_splitAt? hsplit
    exact ⟨front.length, by rw [hcs, List.take_left]; exact hn⟩
  · rintro ⟨index, hn⟩
    have h := splitAt?_byteLength (cs.take index) (cs.drop index)
    rw [List.take_append_drop, ← hn] at h
    rw [h]
    rfl

/-- Walking over the characters adds up the lengths of those passed. -/
theorem offsetOf_eq (cs : List Char) (index : Nat) :
    offsetOf cs index = byteLength (cs.take index) := by
  induction cs generalizing index with
  | nil => simp [offsetOf]
  | cons c cs ih =>
    cases index with
    | zero => rfl
    | succ index => rw [offsetOf, List.take_succ_cons, byteLength_cons, ih]

/-- The offset of an index is that of the character there, or else that of the end of the text. -/
theorem getD_charOffsets (offset index : Nat) (cs : List Char) :
    (charOffsets offset cs)[index]?.getD (offset + byteLength cs) =
      offset + offsetOf cs index := by
  induction cs generalizing offset index with
  | nil => simp [charOffsets, offsetOf]
  | cons c cs ih =>
    cases index with
    | zero => rfl
    | succ index =>
      rw [charOffsets, List.getElem?_cons_succ, byteLength_cons, offsetOf, ← Nat.add_assoc,
        ← Nat.add_assoc, ih]

theorem offsetOf_lt {cs : List Char} {index : Nat} (h : index < cs.length) :
    offsetOf cs index < byteLength cs := by
  have hcs : byteLength cs = byteLength (cs.take index ++ cs[index] :: cs.drop (index + 1)) := by
    rw [← List.drop_eq_getElem_cons h, List.take_append_drop]
  have hpos := cs[index].utf8Size_pos
  rw [offsetOf_eq, hcs, byteLength_append, byteLength_cons]
  omega

theorem splitAt?_offsetOf (cs : List Char) (index : Nat) :
    splitAt? (offsetOf cs index) cs = some (cs.take index, cs.drop index) := by
  have h := splitAt?_byteLength (cs.take index) (cs.drop index)
  rwa [List.take_append_drop, ← offsetOf_eq] at h

/-- The offset of an index is a position of the string. -/
theorem isValid_offsetOf (cs : List Char) (index : Nat) :
    (⟨offsetOf cs index⟩ : String.Pos.Raw).IsValid (String.ofList cs) := by
  rw [← isSome_splitAt?_iff, splitAt?_offsetOf]
  rfl

/-- An index is the place of a boundary. -/
theorem insertAt?_offsetOf (cs : List Char) (index : Nat) (c : Char) :
    insertAt? (offsetOf cs index) c cs = some (cs.take index ++ c :: cs.drop index) := by
  rw [insertAt?, splitAt?_offsetOf]
  rfl

/-- The index of a character is the place of a boundary at which it starts. -/
theorem removeAt?_offsetOf {cs : List Char} {index : Nat} (h : index < cs.length) :
    removeAt? (offsetOf cs index) cs = some (cs.eraseIdx index) := by
  rw [removeAt?, splitAt?_offsetOf, List.drop_eq_getElem_cons h, List.eraseIdx_eq_take_drop_succ]

end StackHeap.Text
