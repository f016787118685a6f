/-! # Powers of two and ten -/

namespace StackHeap.Number

/-- Two to a power. -/
def pow2 (k : Nat) : Nat := Nat.pow 2 k

/-- Ten to a power. -/
def pow10 (k : Nat) : Nat := Nat.pow 10 k

theorem pow2_pos (k : Nat) : 0 < pow2 k := Nat.two_pow_pos k

theorem pow2_add (j k : Nat) : pow2 (j + k) = pow2 j * pow2 k := Nat.pow_add 2 j k

theorem pow2_succ (k : Nat) : pow2 (k + 1) = pow2 k * 2 := Nat.pow_succ 2 k

theorem pow2_le_pow2 {j k : Nat} (h : j ≤ k) : pow2 j ≤ pow2 k :=
  Nat.pow_le_pow_right (by decide) h

theorem one_lt_pow2 {k : Nat} (h : k ≠ 0) : 1 < pow2 k := Nat.one_lt_two_pow h

theorem lt_pow2_log2_succ (n : Nat) : n < pow2 (n.log2 + 1) := Nat.lt_log2_self

theorem pow2_log2_le {n : Nat} (h : n ≠ 0) : pow2 n.log2 ≤ n := Nat.log2_self_le h

theorem pow10_pos (k : Nat) : 0 < pow10 k := Nat.pow_pos (by decide)

end StackHeap.Number
