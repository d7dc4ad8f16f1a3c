import Mathlib.Tactic.Positivity
import Sxla.Library.Binary64
import Sxla.Library.Decimal

/-!
# Decimal text of doubles

Reading rounds the exact decimal once. Writing looks for the fewest decimals
(of an integer: the most trailing zeros) at which one of the two neighbouring
decimals reads back, the nearer one first; all `unitExp` decimals of a double
are exact, so the search ends. What is written reads back.
-/

namespace Sxla.F64

-- ---------------------------------------------------------------------------
-- Reading and writing
-- ---------------------------------------------------------------------------

/-- A numeral with a point, by its sign and the digits on both sides. -/
def ofDecimal (negative : Bool) (int frac : List Char) : Option F64 :=
  if int = [] ∧ frac = [] then none
  else some (ofRatio negative (Decimal.value (int ++ frac)) (10 ^ frac.length))

def sign (x : F64) : List Char := if x.isNegative then ['-'] else []

/-- The two integers around a quotient, the nearer one first. -/
def neighbours (num den : Nat) : List Nat :=
  if 2 * (num % den) ≥ den then [num / den + 1, num / den] else [num / den, num / den + 1]

/-- A decimal with `s` decimals that reads back as `x`. -/
@[irreducible] def shortAt (x : F64) (s : Nat) : Option Nat :=
  (neighbours (x.units * 10 ^ s) (2 ^ unitExp)).find? fun d => ofRatio x.isNegative d (10 ^ s) == x

@[irreducible] def floorAt (x : F64) (s : Nat) : Nat := x.units * 10 ^ s / 2 ^ unitExp

/-- The first scale from `s` on that reads back, with its digits. -/
def shortest (x : F64) : Nat → Nat → Nat × Nat
  | 0, s => (x.floorAt s, s)
  | fuel + 1, s =>
    match shortAt x s with
    | some d => (d, s)
    | none => shortest x fuel (s + 1)

/-- The integer part of a finite double's absolute value. -/
def whole (x : F64) : Nat := x.units / 2 ^ unitExp

@[irreducible] def roundAt (x : F64) (z : Nat) : Option Nat :=
  (neighbours x.whole (10 ^ z)).find? fun d => ofRatio x.isNegative (d * 10 ^ z) 1 == x

/-- An integer with at most `z` trailing zeros made up, that reads back. -/
def shortWhole (x : F64) : Nat → Nat
  | 0 => x.whole
  | z + 1 =>
    match roundAt x (z + 1) with
    | some d => d * 10 ^ (z + 1)
    | none => shortWhole x z

/-- `{:.1}` of an integral double. -/
def displayTenths (x : F64) : List Char :=
  x.sign ++ (Decimal.digits x.whole ++ '.' :: Decimal.lowDigits 0 1)

/-- `{}` of an integral double below `2^63`. -/
def displayWhole (x : F64) : List Char := x.sign ++ Decimal.digits (x.shortWhole 18)

/-- `{}` of a finite double that is not integral. -/
def displayFraction (x : F64) : List Char :=
  let (d, s) := shortest x (unitExp - 1) 1
  x.sign ++ (Decimal.digits (d / 10 ^ s) ++ '.' :: Decimal.lowDigits d s)

-- ---------------------------------------------------------------------------
-- Exact values round to themselves
-- ---------------------------------------------------------------------------

theorem divEven_mul (q : Nat) (h : 0 < d) : divEven (q * d) d = q := by
  simp only [divEven, Nat.mul_div_cancel _ h, Nat.mul_mod_left, mul_zero]
  simp [h.ne]

theorem le_divEven (num den : Nat) : num / den ≤ divEven num den := by
  simp only [divEven]
  split <;> omega

theorem roundUnits_eq (num den : Nat) : roundUnits num den =
    Min.min (((num / den).log2 - 52) * 2 ^ 52 +
      divEven num (den * 2 ^ ((num / den).log2 - 52))) infMagnitude := rfl

theorem log2_mantissa (h : f < 2 ^ 52) : ((f + 2 ^ 52) * 2 ^ e).log2 = 52 + e := by
  rw [Nat.log2_eq_iff (by positivity)]
  constructor
  · rw [pow_add]
    exact Nat.mul_le_mul_right _ (by omega)
  · rw [show 52 + e + 1 = 53 + e from by omega, pow_add]
    exact Nat.mul_lt_mul_of_pos_right (by omega) (by positivity)

theorem roundUnits_exact (hm : m < infMagnitude) (hd : 0 < d) :
    roundUnits (unitsOf m * d) d = m := by
  rw [roundUnits_eq, Nat.mul_div_cancel _ hd]
  unfold unitsOf
  split
  · next h =>
    have hlog : m.log2 - 52 = 0 := by
      rcases Nat.eq_zero_or_pos m with rfl | hpos
      · rfl
      · have := (Nat.log2_lt hpos.ne').mpr h
        omega
    rw [hlog, pow_zero, mul_one, divEven_mul _ hd]
    omega
  · next h =>
    have hf : m % 2 ^ 52 < 2 ^ 52 := Nat.mod_lt _ (by decide)
    rw [log2_mantissa hf, show 52 + (m / 2 ^ 52 - 1) - 52 = m / 2 ^ 52 - 1 from by omega,
      mul_assoc, mul_comm (2 ^ (m / 2 ^ 52 - 1)) d, divEven_mul _ (by positivity)]
    have he : 1 ≤ m / 2 ^ 52 := by omega
    have hdiv := Nat.div_add_mod m (2 ^ 52)
    have hsum : (m / 2 ^ 52 - 1) * 2 ^ 52 + (m % 2 ^ 52 + 2 ^ 52) = m := by omega
    rw [hsum]
    omega

theorem ofMagnitude_self (x : F64) : ofMagnitude x.isNegative x.magnitude = x := by
  obtain ⟨bits⟩ := x
  have hlt := bits.toNat_lt
  simp only [ofMagnitude, isNegative, magnitude, mk.injEq, decide_eq_true_eq]
  refine UInt64.toNat_inj.mp ?_
  rw [UInt64.toNat_ofNat']
  split <;> omega

theorem ofRatio_exact {x : F64} (hx : x.isFinite = true) (hd : 0 < den)
    (h : num * 2 ^ unitExp = x.units * den) : ofRatio x.isNegative num den = x := by
  rw [ofRatio, h, units, roundUnits_exact (by simpa [isFinite] using hx) hd, ofMagnitude_self]

theorem units_of_isIntegral {x : F64} (h : x.isIntegral = true) :
    x.isFinite = true ∧ x.units = x.whole * 2 ^ unitExp := by
  simp only [isIntegral, Bool.and_eq_true, beq_iff_eq] at h
  refine ⟨h.1, ?_⟩
  have := Nat.div_add_mod x.units (2 ^ unitExp)
  rw [h.2, add_zero, mul_comm] at this
  rw [whole, this]

-- ---------------------------------------------------------------------------
-- What is written reads back
-- ---------------------------------------------------------------------------

theorem shortAt_reads {x : F64} (h : shortAt x s = some d) :
    ofRatio x.isNegative d (10 ^ s) = x := by
  delta shortAt at h
  have hd := List.find?_some h
  rwa [beq_iff_eq] at hd

theorem roundAt_reads {x : F64} (h : roundAt x z = some d) :
    ofRatio x.isNegative (d * 10 ^ z) 1 = x := by
  delta roundAt at h
  have hd := List.find?_some h
  rwa [beq_iff_eq] at hd

theorem tenfold (u s : Nat) : u * 10 ^ s = u * 5 ^ s * 2 ^ s := by
  rw [mul_assoc, ← mul_pow]
  rfl

theorem shortest_reads {x : F64} (hx : x.isFinite = true) (fuel : Nat) :
    ∀ s, fuel + s = unitExp →
      ofRatio x.isNegative (shortest x fuel s).1 (10 ^ (shortest x fuel s).2) = x := by
  induction fuel with
  | zero =>
    intro s hs
    rw [zero_add] at hs
    refine ofRatio_exact hx (by positivity) ?_
    rw [shortest, floorAt, hs, tenfold, Nat.mul_div_cancel _ (by positivity)]
  | succ fuel ih =>
    intro s hs
    unfold shortest
    split
    · next d hd =>
      exact shortAt_reads hd
    · exact ih (s + 1) (by omega)

theorem shortWhole_reads {x : F64} (hx : x.isIntegral = true) (z : Nat) :
    ofRatio x.isNegative (shortWhole x z) 1 = x := by
  obtain ⟨hfin, hu⟩ := units_of_isIntegral hx
  induction z with
  | zero => exact ofRatio_exact hfin Nat.one_pos (by rw [hu, mul_one, shortWhole])
  | succ z ih =>
    unfold shortWhole
    split
    · next d hd =>
      exact roundAt_reads hd
    · exact ih

theorem value_displayFraction {x : F64} (hx : x.isFinite = true) :
    ofDecimal x.isNegative
      (Decimal.digits ((shortest x (unitExp - 1) 1).1 / 10 ^ (shortest x (unitExp - 1) 1).2))
      (Decimal.lowDigits (shortest x (unitExp - 1) 1).1 (shortest x (unitExp - 1) 1).2) = some x := by
  simp only [ofDecimal, Decimal.digits_ne_nil, false_and, ↓reduceIte, Decimal.value_fixed,
    Decimal.length_lowDigits, Option.some.injEq]
  exact shortest_reads hx _ 1 rfl

theorem value_displayTenths {x : F64} (hx : x.isIntegral = true) :
    ofDecimal x.isNegative (Decimal.digits x.whole) (Decimal.lowDigits 0 1) = some x := by
  obtain ⟨hfin, hu⟩ := units_of_isIntegral hx
  simp only [ofDecimal, Decimal.digits_ne_nil, false_and, ↓reduceIte, Decimal.value_append,
    Decimal.value_digits, Decimal.value_lowDigits, Decimal.length_lowDigits, Option.some.injEq]
  refine ofRatio_exact hfin (by decide) ?_
  rw [hu]
  ring

theorem magnitude_ofMagnitude (hm : m ≤ infMagnitude) : (ofMagnitude negative m).magnitude = m := by
  have hinf : infMagnitude < 2 ^ 63 := by decide
  have hnat : (ofMagnitude negative m).bits.toNat = (if negative then 2 ^ 63 else 0) + m := by
    rw [ofMagnitude, UInt64.toNat_ofNat']
    split <;> omega
  rw [magnitude, hnat]
  split <;> omega

theorem shortWhole_ne_zero {x : F64} (hx : x.isIntegral = true) (hu : x.units ≠ 0) (z : Nat) :
    shortWhole x z ≠ 0 := by
  intro h
  have hreads := shortWhole_reads hx z
  have hround : roundUnits 0 1 = 0 := by simp [roundUnits, divEven]
  rw [h, ofRatio, Nat.zero_mul, hround] at hreads
  have hmag : x.magnitude = 0 := by
    rw [← hreads, magnitude_ofMagnitude (Nat.zero_le infMagnitude)]
  rw [units, hmag] at hu
  exact hu rfl

/-- A magnitude from that of `2^63` on is at least `2^63`. -/
theorem le_unitsOf (h : (12 + p) * 2 ^ 52 ≤ m) : 2 ^ 63 * 2 ^ p ≤ unitsOf m := by
  rw [unitsOf, if_neg (by omega)]
  calc 2 ^ 63 * 2 ^ p = 2 ^ 52 * 2 ^ (11 + p) := by rw [← pow_add, ← pow_add, ← add_assoc]
    _ ≤ (m % 2 ^ 52 + 2 ^ 52) * 2 ^ (m / 2 ^ 52 - 1) :=
      Nat.mul_le_mul (by omega) (Nat.pow_le_pow_right (by decide) (by omega))

/-- Numbers from `2^63` on round to at least `2^63`. -/
theorem le_roundUnits (h : 2 ^ (63 + p) ≤ num) (hp : 12 + p ≤ 2047) :
    (12 + p) * 2 ^ 52 ≤ roundUnits num 1 := by
  have hne : num ≠ 0 := (lt_of_lt_of_le (by positivity) h).ne'
  have hlog : 63 + p ≤ num.log2 := (Nat.le_log2 hne).mpr h
  rw [roundUnits_eq, Nat.div_one, one_mul]
  set shift := num.log2 - 52 with hshift
  have hself : 2 ^ 52 * 2 ^ shift ≤ num := by
    rw [← pow_add, hshift, Nat.add_sub_cancel' (by omega)]
    exact Nat.log2_self_le hne
  have hdiv : 2 ^ 52 ≤ num / 2 ^ shift := (Nat.le_div_iff_mul_le (by positivity)).mpr hself
  have hle := le_divEven num (2 ^ shift)
  have hinf : infMagnitude = 2047 * 2 ^ 52 := rfl
  omega

/-- An integer that rounds to a double below `2^63` is below it too. -/
theorem lt_of_reads {x : F64} {n : Nat} (hx : x.units < 2 ^ 63 * 2 ^ unitExp)
    (h : ofRatio x.isNegative n 1 = x) : n < 2 ^ 63 := by
  by_contra hn
  have hpow : 2 ^ (63 + unitExp) ≤ n * 2 ^ unitExp := by
    rw [pow_add]
    exact Nat.mul_le_mul_right _ (by omega)
  have hround := le_roundUnits hpow (by decide)
  have hmag : x.magnitude = roundUnits (n * 2 ^ unitExp) 1 := by
    rw [← h, ofRatio, magnitude_ofMagnitude]
    rw [roundUnits_eq]
    exact Nat.min_le_right _ _
  exact absurd hx (not_lt.mpr (le_unitsOf (hmag ▸ hround)))

/-- Converting a signed 64-bit integer reads its numeral. -/
theorem ofInt64_of_reads {x : F64} {v : Int64} {n : Nat}
    (hv : v.toInt = if x.isNegative then -(n : Int) else n) (hn : n ≠ 0) :
    ofInt64 v = ofRatio x.isNegative n 1 := by
  have habs : (v.toInt * 2 ^ unitExp).natAbs = n * 2 ^ unitExp := by
    rw [Int.natAbs_mul, hv]
    split <;> simp [Int.natAbs_pow]
  have hneg : decide (v.toInt * 2 ^ unitExp < 0) = x.isNegative := by
    have hpos : (0 : Int) < 2 ^ unitExp := by positivity
    rw [hv]
    split
    · next h =>
      rw [h, decide_eq_true_eq]
      exact mul_neg_of_neg_of_pos (by omega) hpos
    · next h =>
      rw [Bool.not_eq_true] at h
      rw [h, decide_eq_false_iff_not, not_lt]
      positivity
  rw [ofInt64, ofScaled, ofRatio, habs, hneg]

end Sxla.F64
