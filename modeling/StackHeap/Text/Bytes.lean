/-! # Positions in bytes

Positions in a command are counted in bytes of its UTF-8 form.  A text is cut at such positions
by walking its characters, so a cut never falls inside one. -/

namespace StackHeap.Text

/-- The length of a text in bytes. -/
def byteLength : List Char → Nat
  | [] => 0
  | c :: cs => c.utf8Size + byteLength cs

@[simp] theorem byteLength_nil : byteLength [] = 0 := rfl

@[simp] theorem byteLength_cons (c : Char) (cs : List Char) :
    byteLength (c :: cs) = c.utf8Size + byteLength cs := rfl

@[simp] theorem byteLength_append (a b : List Char) :
    byteLength (a ++ b) = byteLength a + byteLength b := by
  induction a with
  | nil => simp
  | cons c a ih => simp [ih, Nat.add_assoc]

theorem utf8ByteSize_ofList (cs : List Char) : (String.ofList cs).utf8ByteSize = byteLength cs := by
  induction cs with
  | nil => rfl
  | cons c cs ih =>
    rw [String.ofList_cons, String.utf8ByteSize_append, String.utf8ByteSize_singleton, ih,
      byteLength_cons]

/-- What follows the first `n` bytes. -/
def dropBytes : Nat → List Char → List Char
  | 0, cs => cs
  | _, [] => []
  | n, c :: cs => dropBytes (n - c.utf8Size) cs

/-- The first `n` bytes. -/
def takeBytes : Nat → List Char → List Char
  | 0, _ => []
  | _, [] => []
  | n, c :: cs => c :: takeBytes (n - c.utf8Size) cs

@[simp] theorem dropBytes_byteLength (a b : List Char) : dropBytes (byteLength a) (a ++ b) = b := by
  induction a with
  | nil => cases b <;> rfl
  | cons c a ih =>
    have := c.utf8Size_pos
    obtain ⟨k, hk⟩ : ∃ k, byteLength (c :: a) = k + 1 := ⟨_, (Nat.succ_pred (by simp; omega)).symm⟩
    rw [List.cons_append, hk, dropBytes, ← hk, byteLength_cons, Nat.add_sub_cancel_left, ih]
    omega

@[simp] theorem takeBytes_byteLength (a b : List Char) : takeBytes (byteLength a) (a ++ b) = a := by
  induction a with
  | nil => cases b <;> rfl
  | cons c a ih =>
    have := c.utf8Size_pos
    obtain ⟨k, hk⟩ : ∃ k, byteLength (c :: a) = k + 1 := ⟨_, (Nat.succ_pred (by simp; omega)).symm⟩
    rw [List.cons_append, hk, takeBytes, ← hk, byteLength_cons, Nat.add_sub_cancel_left, ih]
    omega

/-- A range of bytes: from `start` to before `stop`. -/
structure Span where
  start : Nat
  stop : Nat
deriving DecidableEq, Repr, Inhabited

/-- The place of a range as told to the user, counted from one. -/
def Span.position (s : Span) : Nat := s.start + 1

/-- The part of a text that a range covers. -/
def slice (cs : List Char) (s : Span) : List Char := takeBytes (s.stop - s.start) (dropBytes s.start cs)

theorem slice_append (a b c : List Char) :
    slice (a ++ b ++ c) ⟨byteLength a, byteLength a + byteLength b⟩ = b := by
  simp [slice]

end StackHeap.Text
