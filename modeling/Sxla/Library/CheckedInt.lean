import Mathlib.Data.Nat.Notation

/-!
# Checked 64-bit arithmetic

Sums, products and quotients of signed 64-bit integers that are absent where
the exact value does not fit.
-/

namespace CheckedInt

def ofInt (v : Int) : Option Int64 :=
  if -0x8000000000000000 ≤ v ∧ v < 0x8000000000000000 then some (.ofInt v) else none

def add (x y : Int64) : Option Int64 := ofInt (x.toInt + y.toInt)

def sub (x y : Int64) : Option Int64 := ofInt (x.toInt - y.toInt)

def mul (x y : Int64) : Option Int64 := ofInt (x.toInt * y.toInt)

/-- Rounds towards zero. -/
def div (x y : Int64) : Option Int64 :=
  if y.toInt = 0 then none else ofInt (x.toInt.tdiv y.toInt)

variable {x y z : Int64} {v : Int}

theorem ofInt_eq_some (h : ofInt v = some z) : z = .ofInt v := by
  unfold ofInt at h
  split at h
  · exact (Option.some.inj h).symm
  · cases h

-- where the exact value fits, the wrapping one is exact

theorem add_eq_some (h : add x y = some z) : z = x + y := by
  rw [ofInt_eq_some h, Int64.ofInt_add, Int64.ofInt_toInt, Int64.ofInt_toInt]

theorem sub_eq_some (h : sub x y = some z) : z = x - y := by
  rw [ofInt_eq_some h, Int64.ofInt_sub, Int64.ofInt_toInt, Int64.ofInt_toInt]

theorem mul_eq_some (h : mul x y = some z) : z = x * y := by
  rw [ofInt_eq_some h, Int64.ofInt_mul, Int64.ofInt_toInt, Int64.ofInt_toInt]

end CheckedInt
