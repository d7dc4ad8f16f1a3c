import Mathlib.Data.List.Basic
import Mathlib.Tactic.Ring

/-!
# Decimal numerals as character lists

Digits of a natural number, signed numerals, and fixed-point numerals with a
given number of decimals, with the values their digits stand for.
-/

namespace Decimal

def digits (n : Nat) : List Char := Nat.toDigits 10 n

def value (cs : List Char) : Nat := Nat.ofDigitChars 10 cs 0

def signed (v : Int) : List Char := if v < 0 then '-' :: digits v.natAbs else digits v.natAbs

/-- The lowest `count` digits, with leading zeros. -/
def lowDigits (n : Nat) : Nat → List Char
  | 0 => []
  | count + 1 => lowDigits (n / 10) count ++ [Nat.digitChar (n % 10)]

theorem value_digits (n : Nat) : value (digits n) = n := Nat.ofDigitChars_ten_toDigits

theorem digits_ne_nil (n : Nat) : digits n ≠ [] := Nat.toDigits_ne_nil

theorem isDigit_of_mem_digits (h : c ∈ digits n) : c.isDigit = true :=
  Nat.isDigit_of_mem_toDigits (by decide) (by decide) h

theorem value_append (l m : List Char) : value (l ++ m) = 10 ^ m.length * value l + value m := by
  rw [value, Nat.ofDigitChars_append, Nat.ofDigitChars_eq_ofDigitChars_zero, value, value]

theorem isDigit_digitChar (h : d < 10) : (Nat.digitChar d).isDigit = true := by
  have hd : digits d = [Nat.digitChar d] := Nat.toDigits_of_lt_base h
  exact isDigit_of_mem_digits (hd ▸ List.mem_singleton_self _)

@[simp] theorem length_lowDigits : (lowDigits n count).length = count := by
  induction count generalizing n with
  | zero => rfl
  | succ count ih => simp [lowDigits, ih]

theorem isDigit_of_mem_lowDigits (h : c ∈ lowDigits n count) : c.isDigit = true := by
  induction count generalizing n with
  | zero => simp [lowDigits] at h
  | succ count ih =>
    rcases List.mem_append.mp h with h | h
    · exact ih h
    · rw [List.mem_singleton] at h
      exact h ▸ isDigit_digitChar (Nat.mod_lt _ (by decide))

theorem value_lowDigits : value (lowDigits n count) = n % 10 ^ count := by
  induction count generalizing n with
  | zero => simp [lowDigits, value, Nat.mod_one]
  | succ count ih =>
    have hd : value [Nat.digitChar (n % 10)] = n % 10 := by
      have h := value_digits (n % 10)
      rwa [digits, Nat.toDigits_of_lt_base (Nat.mod_lt _ (by decide))] at h
    rw [lowDigits, value_append, ih, hd, pow_succ', Nat.mod_mul, List.length_singleton, pow_one]
    omega

/-- The two parts of a fixed-point numeral stand for all its digits. -/
theorem value_fixed (n count : Nat) :
    value (digits (n / 10 ^ count) ++ lowDigits n count) = n := by
  rw [value_append, value_digits, value_lowDigits, length_lowDigits]
  exact Nat.div_add_mod n (10 ^ count)

end Decimal
