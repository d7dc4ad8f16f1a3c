import Mathlib

/-!
# Saturating and checked sums

The saturating operations of 64-bit machine integers, and sums that stop at
an overflow. A saturating sum of natural numbers is the clipped sum, so it
keeps the order of its terms; a checked one is the sum where that fits.
-/

namespace Saturating

def u64Max : Nat := 0xffffffffffffffff

def u32Max : Nat := 0xffffffff

def add (a b : Nat) : Nat := min (a + b) u64Max

def mul (a b : Nat) : Nat := min (a * b) u64Max

def sum (l : List Nat) : Nat := l.foldl add 0

/-- The nearest value an `i64` holds. -/
def clampInt (v : Int) : Int := max (-0x8000000000000000) (min v 0x7fffffffffffffff)

def addInt (a b : Int) : Int := clampInt (a + b)

def mulInt (a b : Int) : Int := clampInt (a * b)

theorem add_le_add (ha : a ≤ a') (hb : b ≤ b') : add a b ≤ add a' b' := by
  unfold add
  omega

/-- Below any limit. -/
def addUpTo (limit a b : Nat) : Nat := min (a + b) limit

theorem foldl_addUpTo {l : List Nat} {limit acc : Nat} (h : acc ≤ limit) :
    l.foldl (addUpTo limit) acc = min (acc + l.sum) limit := by
  induction l generalizing acc with
  | nil => simp [h]
  | cons x l ih =>
    have hx : addUpTo limit acc x ≤ limit := Nat.min_le_right ..
    rw [List.foldl_cons, ih hx]
    simp only [List.sum_cons, addUpTo]
    omega

theorem foldl_add {l : List Nat} (h : acc ≤ u64Max) : l.foldl add acc = min (acc + l.sum) u64Max :=
  foldl_addUpTo h

theorem sum_eq (l : List Nat) : sum l = min l.sum u64Max := by
  simp [sum, foldl_add]

theorem sum_le_of_le {l m : List Nat} (h : l.sum ≤ m.sum) : sum l ≤ sum m := by
  simp only [sum_eq]
  omega

theorem sum_append (l m : List Nat) : sum (l ++ m) = add (sum l) (sum m) := by
  simp only [sum_eq, List.sum_append, add]
  omega

/-- Two passes over one accumulator add up to one sum. -/
theorem foldl_foldl (l m : List Nat) : m.foldl add (sum l) = sum (l ++ m) := by
  simp [sum]

-- ---------------------------------------------------------------------------
-- Checked sums
-- ---------------------------------------------------------------------------

/-- Nothing at an overflow. -/
def checkedAdd (a b : Nat) : Option Nat := if a + b ≤ u64Max then some (a + b) else none

def checkedSum (l : List Nat) : Option Nat := l.foldlM checkedAdd 0

/-- Below any limit. -/
def checkedAddUpTo (limit a b : Nat) : Option Nat := if a + b ≤ limit then some (a + b) else none

theorem foldlM_checkedAddUpTo {l : List Nat} {limit acc : Nat} (h : acc ≤ limit) :
    l.foldlM (checkedAddUpTo limit) acc =
      if acc + l.sum ≤ limit then some (acc + l.sum) else none := by
  induction l generalizing acc with
  | nil =>
    rw [List.foldlM_nil, List.sum_nil, Nat.add_zero, if_pos h]
    rfl
  | cons x l ih =>
    rw [List.foldlM_cons, List.sum_cons, checkedAddUpTo, ← Nat.add_assoc]
    by_cases hx : acc + x ≤ limit
    · rw [if_pos hx, Option.bind_eq_bind, Option.bind_some, ih hx]
    · rw [if_neg hx, if_neg (by omega)]
      rfl

theorem foldlM_checkedAdd {l : List Nat} (h : acc ≤ u64Max) :
    l.foldlM checkedAdd acc = if acc + l.sum ≤ u64Max then some (acc + l.sum) else none :=
  foldlM_checkedAddUpTo h

theorem checkedSum_eq (l : List Nat) :
    checkedSum l = if l.sum ≤ u64Max then some l.sum else none := by
  rw [checkedSum, foldlM_checkedAdd (Nat.zero_le _), Nat.zero_add]

end Saturating
