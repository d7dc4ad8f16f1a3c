import Sxla.Library.Binary64Text

/-!
# Integers in doubles

A double keeps 53 significant bits. On integers of moderate size every
operation is therefore the operation on integers followed by `rounded`, and a
double that holds an integer converts back to it within the range of an `i64`.
`Holds x n` says that the double `x` is the integer `n`.
-/

namespace Sxla.F64

variable {x y : F64} {m n : Int} {num den q k : Nat}

-- ---------------------------------------------------------------------------
-- Rounding
-- ---------------------------------------------------------------------------

/-- `num / den` to the nearest integer of 53 significant bits, ties to even. -/
def nearest (num den : Nat) : Nat :=
  let shift := (num / den).log2 - 52
  divEven num (den * 2 ^ shift) * 2 ^ shift

def rounded (n : Int) : Int := n.sign * nearest n.natAbs 1

/-- The quotient of two integers in doubles, if it is an integer. -/
def quotient (m n : Int) : Option Int :=
  let u := nearest (m.natAbs * 2 ^ unitExp) n.natAbs
  if u % 2 ^ unitExp = 0 then some (m.sign * n.sign * (u / 2 ^ unitExp : Nat)) else none

theorem divEven_mul_right (hk : 0 < k) (num den : Nat) :
    divEven (num * k) (den * k) = divEven num den := by
  have hlt : ∀ r, 2 * (r * k) > den * k ↔ 2 * r > den := fun r => by
    rw [← Nat.mul_assoc, gt_iff_lt, gt_iff_lt, Nat.mul_lt_mul_right hk]
  have heq : ∀ r, 2 * (r * k) = den * k ↔ 2 * r = den := fun r => by
    rw [← Nat.mul_assoc, Nat.mul_left_inj hk.ne']
  simp only [divEven, Nat.mul_div_mul_right _ _ hk, Nat.mul_mod_mul_right, hlt, beq_eq_decide, heq]

theorem divEven_le (num den : Nat) : divEven num den ≤ num / den + 1 := by
  simp only [divEven]
  split <;> omega

theorem roundUnits_mul_right (hk : 0 < k) (num den : Nat) :
    roundUnits (num * k) (den * k) = roundUnits num den := by
  rw [roundUnits_eq, roundUnits_eq, Nat.mul_div_mul_right _ _ hk, Nat.mul_right_comm den k,
    divEven_mul_right hk]

/-- What the rounding keeps: 53 bits, and all of them once bits are dropped. -/
theorem kept_bits (q : Nat) :
    q / 2 ^ (q.log2 - 52) < 2 ^ 53 ∧ (0 < q.log2 - 52 → 2 ^ 52 ≤ q / 2 ^ (q.log2 - 52)) := by
  rcases Nat.eq_zero_or_pos q with rfl | hq
  · simp
  constructor
  · rw [Nat.div_lt_iff_lt_mul (by positivity), ← pow_add]
    exact lt_of_lt_of_le Nat.lt_log2_self (Nat.pow_le_pow_right (by decide) (by omega))
  · intro hs
    rw [Nat.le_div_iff_mul_le (by positivity), ← pow_add]
    exact le_trans (Nat.pow_le_pow_right (by decide) (by omega)) (Nat.log2_self_le hq.ne')

theorem unitsOf_mantissa {f e : Nat} (hf : f < 2 ^ 52) :
    unitsOf ((e + 1) * 2 ^ 52 + f) = (f + 2 ^ 52) * 2 ^ e := by
  have hdiv : ((e + 1) * 2 ^ 52 + f) / 2 ^ 52 = e + 1 := by omega
  have hmod : ((e + 1) * 2 ^ 52 + f) % 2 ^ 52 = f := by omega
  rw [unitsOf, if_neg (by omega), hdiv, hmod, Nat.add_sub_cancel]

/-- The units of a rounded magnitude are the rounded number of units. -/
theorem unitsOf_roundUnits (hfin : roundUnits num den < infMagnitude) :
    unitsOf (roundUnits num den) = nearest num den := by
  have hmin : roundUnits num den = ((num / den).log2 - 52) * 2 ^ 52 +
      divEven num (den * 2 ^ ((num / den).log2 - 52)) := by
    rw [roundUnits_eq] at hfin ⊢
    omega
  rw [hmin, nearest]
  obtain ⟨hlt, hge⟩ := kept_bits (num / den)
  rw [Nat.div_div_eq_div_mul] at hlt hge
  have hlo := le_divEven num (den * 2 ^ ((num / den).log2 - 52))
  have hhi := divEven_le num (den * 2 ^ ((num / den).log2 - 52))
  generalize divEven num (den * 2 ^ ((num / den).log2 - 52)) = t at hlo hhi ⊢
  generalize (num / den).log2 - 52 = e at hlt hge hlo hhi ⊢
  rcases Nat.lt_or_ge t (2 ^ 52) with ht | ht
  · obtain rfl : e = 0 := by
      by_contra he
      have := hge (Nat.pos_of_ne_zero he)
      omega
    rw [unitsOf, if_pos (by omega)]
    simp
  · obtain ⟨f, rfl⟩ := Nat.exists_eq_add_of_le ht
    rcases Nat.lt_or_ge f (2 ^ 52) with hf | hf
    · rw [show e * 2 ^ 52 + (2 ^ 52 + f) = (e + 1) * 2 ^ 52 + f from by ring, unitsOf_mantissa hf,
        Nat.add_comm]
    · obtain rfl : f = 2 ^ 52 := by omega
      rw [show e * 2 ^ 52 + (2 ^ 52 + 2 ^ 52) = (e + 1 + 1) * 2 ^ 52 + 0 from by ring,
        unitsOf_mantissa (by decide), pow_succ]
      ring

/-- Moderate numbers of units round to finite magnitudes. -/
theorem roundUnits_lt (h : num / den < 2 ^ k) (hk : k ≤ 2000) :
    roundUnits num den < infMagnitude := by
  have hlog : (num / den).log2 ≤ k := by
    rcases Nat.eq_zero_or_pos (num / den) with hz | hpos
    · rw [hz]
      exact Nat.zero_le k
    · exact ((Nat.log2_lt hpos.ne').mpr h).le
  obtain ⟨hlt, _⟩ := kept_bits (num / den)
  rw [Nat.div_div_eq_div_mul] at hlt
  have hhi := divEven_le num (den * 2 ^ ((num / den).log2 - 52))
  have hinf : infMagnitude = 2047 * 2 ^ 52 := rfl
  rw [roundUnits_eq]
  omega

/-- Rounding looks at leading bits only. -/
theorem nearest_shift (num : Nat) (k : Nat) : nearest (num * 2 ^ k) 1 = nearest num 1 * 2 ^ k := by
  rcases Nat.eq_zero_or_pos num with rfl | hpos
  · simp [nearest, divEven]
  have hlog : (num * 2 ^ k).log2 = num.log2 + k := by
    rw [Nat.log2_eq_iff (by positivity)]
    constructor
    · rw [pow_add]
      exact Nat.mul_le_mul_right _ (Nat.log2_self_le hpos.ne')
    · rw [Nat.add_right_comm, pow_add _ _ k]
      exact Nat.mul_lt_mul_of_pos_right Nat.lt_log2_self (by positivity)
  simp only [nearest, Nat.div_one, Nat.one_mul, hlog]
  rcases Nat.lt_or_ge num.log2 52 with hs | hs
  · have hexact : ∀ s, s ≤ k → divEven (num * 2 ^ k) (2 ^ s) * 2 ^ s = num * 2 ^ k := by
      intro s hsk
      obtain ⟨j, rfl⟩ := Nat.exists_eq_add_of_le hsk
      rw [Nat.add_comm, pow_add, ← Nat.mul_assoc, divEven_mul _ (by positivity)]
    have hone := divEven_mul num Nat.one_pos
    rw [hexact _ (by omega), show num.log2 - 52 = 0 from by omega, pow_zero, Nat.mul_one]
    rw [Nat.mul_one] at hone
    rw [hone]
  · rw [show num.log2 + k - 52 = num.log2 - 52 + k from by omega, pow_add,
      divEven_mul_right (by positivity), Nat.mul_assoc]

theorem nearest_le (num : Nat) : nearest num 1 ≤ 2 * num := by
  rcases Nat.eq_zero_or_pos num with rfl | hpos
  · simp [nearest, divEven]
  simp only [nearest, Nat.div_one, Nat.one_mul]
  have hhi := divEven_le num (2 ^ (num.log2 - 52))
  have hself : 2 ^ (num.log2 - 52) ≤ num :=
    le_trans (Nat.pow_le_pow_right (by decide) (Nat.sub_le _ _)) (Nat.log2_self_le hpos.ne')
  calc divEven num (2 ^ (num.log2 - 52)) * 2 ^ (num.log2 - 52)
      ≤ (num / 2 ^ (num.log2 - 52) + 1) * 2 ^ (num.log2 - 52) := Nat.mul_le_mul_right _ hhi
    _ = num / 2 ^ (num.log2 - 52) * 2 ^ (num.log2 - 52) + 2 ^ (num.log2 - 52) := by ring
    _ ≤ num + num := Nat.add_le_add (Nat.div_mul_le_self _ _) hself
    _ = 2 * num := (Nat.two_mul num).symm

theorem natAbs_rounded (n : Int) : (rounded n).natAbs = nearest n.natAbs 1 := by
  rcases Int.lt_trichotomy n 0 with hn | rfl | hn
  · rw [rounded, Int.natAbs_mul, Int.sign_eq_neg_one_of_neg hn]
    simp
  · decide
  · rw [rounded, Int.natAbs_mul, Int.sign_eq_one_of_pos hn]
    simp

theorem natAbs_rounded_le (n : Int) : (rounded n).natAbs ≤ 2 * n.natAbs := by
  rw [natAbs_rounded]
  exact nearest_le _

/-- Integers of at most 53 bits are kept. -/
theorem rounded_of_le (h : n.natAbs < 2 ^ 53) : rounded n = n := by
  have hshift : n.natAbs.log2 - 52 = 0 := by
    rcases Nat.eq_zero_or_pos n.natAbs with hz | hpos
    · rw [hz]
      decide
    · have := (Nat.log2_lt hpos.ne').mpr h
      omega
  have hone := divEven_mul n.natAbs Nat.one_pos
  rw [Nat.mul_one] at hone
  simp only [rounded, nearest, Nat.div_one, hshift, pow_zero, Nat.mul_one, hone]
  exact Int.sign_mul_natAbs n

theorem rounded_eq_zero {n : Int} (h : rounded n = 0) : n = 0 := by
  by_contra hn
  have hpos : 0 < n.natAbs := Int.natAbs_pos.mpr hn
  have hz : nearest n.natAbs 1 = 0 := by rw [← natAbs_rounded, h, Int.natAbs_zero]
  simp only [nearest, Nat.div_one, Nat.one_mul] at hz
  have hself : 2 ^ (n.natAbs.log2 - 52) ≤ n.natAbs :=
    le_trans (Nat.pow_le_pow_right (by decide) (Nat.sub_le _ _)) (Nat.log2_self_le hpos.ne')
  have hone : 0 < n.natAbs / 2 ^ (n.natAbs.log2 - 52) := Nat.div_pos hself (by positivity)
  have hle := le_divEven n.natAbs (2 ^ (n.natAbs.log2 - 52))
  rcases Nat.mul_eq_zero.mp hz with h0 | h0
  · omega
  · exact absurd h0 (by positivity)

-- ---------------------------------------------------------------------------
-- Doubles that are integers
-- ---------------------------------------------------------------------------

/-- A finite double that is the integer `n`; both zeros are 0. -/
structure Holds (x : F64) (n : Int) : Prop where
  finite : x.isFinite = true
  scaled_eq : x.scaled = n * 2 ^ unitExp

/-- Small enough that no sum or product leaves the finite doubles. -/
def Moderate (n : Int) : Prop := n.natAbs < 2 ^ 200

theorem isNegative_ofMagnitude {negative : Bool} {m : Nat} (hm : m ≤ infMagnitude) :
    (ofMagnitude negative m).isNegative = negative := by
  have hinf : infMagnitude < 2 ^ 63 := by decide
  have hnat : (ofMagnitude negative m).bits.toNat = (if negative then 2 ^ 63 else 0) + m := by
    rw [ofMagnitude, UInt64.toNat_ofNat']
    split <;> omega
  rw [isNegative, hnat]
  cases negative with
  | false => simp only [Bool.false_eq_true, if_false, decide_eq_false_iff_not]; omega
  | true => simp

/-- What a rounded magnitude holds. -/
theorem ofMagnitude_roundUnits (negative : Bool) (h : num / den < 2 ^ k) (hk : k ≤ 2000) :
    (ofMagnitude negative (roundUnits num den)).isFinite = true ∧
      (ofMagnitude negative (roundUnits num den)).units = nearest num den ∧
      (ofMagnitude negative (roundUnits num den)).isNegative = negative := by
  have hlt := roundUnits_lt h hk
  have hmag : (ofMagnitude negative (roundUnits num den)).magnitude = roundUnits num den :=
    magnitude_ofMagnitude hlt.le
  refine ⟨?_, ?_, isNegative_ofMagnitude hlt.le⟩
  · rw [isFinite, hmag]
    exact decide_eq_true hlt
  · rw [units, hmag, unitsOf_roundUnits hlt]

theorem units_lt_pow {a : Nat} (h : a < 2 ^ 200) : a * 2 ^ unitExp < 2 ^ (200 + unitExp) := by
  rw [pow_add]
  exact Nat.mul_lt_mul_of_pos_right h (by positivity)

/-- A sign bit in front of a number of units. -/
theorem signed_eq (hn : n ≠ 0) (u : Nat) :
    (if decide (n < 0) = true then -((u * 2 ^ unitExp : Nat) : Int) else (u * 2 ^ unitExp : Nat)) =
      n.sign * u * 2 ^ unitExp := by
  have hcast : ((u * 2 ^ unitExp : Nat) : Int) = u * 2 ^ unitExp := by
    rw [Nat.cast_mul, Nat.cast_pow, Nat.cast_ofNat]
  rw [hcast]
  rcases Int.lt_or_gt_of_ne hn with h | h
  · rw [if_pos (decide_eq_true h), Int.sign_eq_neg_one_of_neg h, Int.neg_one_mul, Int.neg_mul]
  · rw [if_neg (by rw [decide_eq_true_eq]; omega), Int.sign_eq_one_of_pos h, Int.one_mul]

/-- The sign bits of a product and of a quotient. -/
theorem bne_signs (hm : m ≠ 0) (hn : n ≠ 0) :
    (decide (m < 0) != decide (n < 0)) = decide (m * n < 0) := by
  rcases Int.lt_or_gt_of_ne hm with hm | hm <;> rcases Int.lt_or_gt_of_ne hn with hn | hn
  · rw [decide_eq_true hm, decide_eq_true hn,
      decide_eq_false (not_lt.mpr (Int.mul_pos_of_neg_of_neg hm hn).le)]
    rfl
  · rw [decide_eq_true hm, decide_eq_false (not_lt.mpr hn.le),
      decide_eq_true (Int.mul_neg_of_neg_of_pos hm hn)]
    rfl
  · rw [decide_eq_false (not_lt.mpr hm.le), decide_eq_true hn,
      decide_eq_true (Int.mul_neg_of_pos_of_neg hm hn)]
    rfl
  · rw [decide_eq_false (not_lt.mpr hm.le), decide_eq_false (not_lt.mpr hn.le),
      decide_eq_false (not_lt.mpr (Int.mul_pos hm hn).le)]
    rfl

theorem nearest_zero (den : Nat) : nearest 0 den = 0 := by
  simp [nearest, divEven]

theorem natAbs_units (n : Int) : (n * 2 ^ unitExp).natAbs = n.natAbs * 2 ^ unitExp := by
  rw [Int.natAbs_mul, Int.natAbs_pow, show Int.natAbs 2 = 2 from rfl]

theorem natAbs_scaled (x : F64) : x.scaled.natAbs = x.units := by
  rw [scaled]
  split <;> simp

theorem holds_ofScaled (h : Moderate n) : Holds (ofScaled (n * 2 ^ unitExp) 1) (rounded n) := by
  have hneg : decide (n * 2 ^ unitExp < 0) = decide (n < 0) := by
    have hpos : (0 : Int) < 2 ^ unitExp := by positivity
    simp only [decide_eq_decide]
    exact ⟨fun hn => neg_of_mul_neg_left hn hpos.le, fun hn => mul_neg_of_neg_of_pos hn hpos⟩
  rw [ofScaled, natAbs_units, hneg]
  have hlt : n.natAbs * 2 ^ unitExp / 1 < 2 ^ (200 + unitExp) := by
    rw [Nat.div_one]
    exact units_lt_pow h
  obtain ⟨hfin, hunits, hsign⟩ := ofMagnitude_roundUnits (decide (n < 0)) hlt (by decide)
  refine ⟨hfin, ?_⟩
  rw [scaled, hunits, hsign, nearest_shift, rounded]
  rcases eq_or_ne n 0 with rfl | hn
  · rw [Int.natAbs_zero, nearest_zero, Nat.zero_mul, Int.sign_zero, Int.zero_mul, Int.zero_mul]
    rfl
  · exact signed_eq hn _

theorem holds_zero (negative : Bool) : Holds (zero negative) 0 := by
  have hunits : (zero negative).units = 0 := by cases negative <;> decide
  refine ⟨by cases negative <;> decide, ?_⟩
  rw [scaled, hunits, Int.zero_mul]
  split <;> rfl

namespace Holds

theorem not_special (h : Holds x n) : x.isNaN = false ∧ x.isInfinite = false := by
  have hfin := h.finite
  simp only [isFinite, decide_eq_true_eq] at hfin
  constructor
  · exact decide_eq_false (by omega)
  · simp only [isInfinite, beq_eq_false_iff_ne]
    omega

theorem units_eq (h : Holds x n) : x.units = n.natAbs * 2 ^ unitExp := by
  rw [← natAbs_scaled, h.scaled_eq, natAbs_units]

/-- The sign bit of a double that is not zero. -/
theorem isNegative_eq (h : Holds x n) (hn : n ≠ 0) : x.isNegative = decide (n < 0) := by
  have hs := h.scaled_eq
  have hpos : (0 : Int) < 2 ^ unitExp := by positivity
  rw [scaled] at hs
  cases hneg : x.isNegative with
  | true =>
    rw [hneg, if_pos rfl] at hs
    have hle : n * 2 ^ unitExp ≤ 0 := hs ▸ Int.neg_nonpos_of_nonneg (Int.natCast_nonneg _)
    have : n ≤ 0 := nonpos_of_mul_nonpos_left hle hpos
    exact (decide_eq_true (by omega)).symm
  | false =>
    rw [hneg, if_neg Bool.false_ne_true] at hs
    have hge : 0 ≤ n * 2 ^ unitExp := hs ▸ Int.natCast_nonneg _
    have : 0 ≤ n := nonneg_of_mul_nonneg_left hge hpos
    exact (decide_eq_false (by omega)).symm

theorem isZero_iff (h : Holds x n) : x.isZero = true ↔ n = 0 := by
  have hu := h.units_eq
  rw [isZero, beq_iff_eq]
  constructor
  · intro hm
    rw [units, hm] at hu
    have hz : n.natAbs * 2 ^ unitExp = 0 := hu.symm
    exact Int.natAbs_eq_zero.mp ((Nat.mul_eq_zero.mp hz).resolve_right (by positivity))
  · rintro rfl
    rw [Int.natAbs_zero, Nat.zero_mul, units, unitsOf] at hu
    split at hu
    · exact hu
    · have hpos : 0 < (x.magnitude % 2 ^ 52 + 2 ^ 52) * 2 ^ (x.magnitude / 2 ^ 52 - 1) := by positivity
      omega

theorem add (hx : Holds x m) (hy : Holds y n) (h : Moderate (m + n)) :
    Holds (x.add y) (rounded (m + n)) := by
  obtain ⟨hxn, hxi⟩ := hx.not_special
  obtain ⟨hyn, hyi⟩ := hy.not_special
  rw [F64.add, hxn, hyn, hxi, hyi]
  simp only [Bool.or_self, Bool.false_eq_true, if_false, Bool.and_eq_true, hx.isZero_iff,
    hy.isZero_iff]
  split
  · rename_i hzero
    obtain ⟨rfl, rfl⟩ := hzero
    exact holds_zero _
  · rw [hx.scaled_eq, hy.scaled_eq, ← Int.add_mul]
    exact holds_ofScaled h

theorem mul (hx : Holds x m) (hy : Holds y n) (h : Moderate (m * n)) :
    Holds (x.mul y) (rounded (m * n)) := by
  obtain ⟨hxn, hxi⟩ := hx.not_special
  obtain ⟨hyn, hyi⟩ := hy.not_special
  have hprod : x.units * y.units = (m * n).natAbs * 2 ^ unitExp * 2 ^ unitExp := by
    rw [hx.units_eq, hy.units_eq, Int.natAbs_mul]
    ring
  have hround : roundUnits (x.units * y.units) (2 ^ unitExp) =
      roundUnits ((m * n).natAbs * 2 ^ unitExp) 1 := by
    rw [hprod, ← roundUnits_mul_right (k := 2 ^ unitExp) (by positivity) _ 1, Nat.one_mul]
  have hlt : (m * n).natAbs * 2 ^ unitExp / 1 < 2 ^ (200 + unitExp) := by
    rw [Nat.div_one]
    exact units_lt_pow h
  rw [F64.mul, hxn, hyn, hxi, hyi]
  simp only [Bool.or_self, Bool.false_eq_true, if_false]
  rw [hround]
  obtain ⟨hfin, hunits, hsign⟩ :=
    ofMagnitude_roundUnits (x.isNegative != y.isNegative) hlt (by decide)
  refine ⟨hfin, ?_⟩
  rw [scaled, hunits, hsign, nearest_shift, rounded]
  rcases eq_or_ne (m * n) 0 with hz | hz
  · rw [hz, Int.natAbs_zero, nearest_zero, Nat.zero_mul, Int.sign_zero, Int.zero_mul, Int.zero_mul]
    split <;> rfl
  · obtain ⟨hm, hn⟩ := mul_ne_zero_iff.mp hz
    rw [hx.isNegative_eq hm, hy.isNegative_eq hn, bne_signs hm hn]
    exact signed_eq hz _

end Holds

theorem neg_bits (x : F64) :
    x.neg.magnitude = x.magnitude ∧ x.neg.isNegative = !x.isNegative := by
  have hlt := x.bits.toNat_lt
  have hnat : x.neg.bits.toNat = x.bits.toNat ^^^ 2 ^ 63 := UInt64.toNat_xor _ _
  constructor
  · rw [magnitude, hnat, Nat.xor_mod_two_pow, Nat.mod_self, Nat.xor_zero, magnitude]
  · have hdiv : x.neg.bits.toNat / 2 ^ 63 = (x.bits.toNat / 2 ^ 63) ^^^ 1 := by
      rw [hnat, Nat.xor_div_two_pow, Nat.div_self (by positivity)]
    have hcases : x.bits.toNat / 2 ^ 63 = 0 ∨ x.bits.toNat / 2 ^ 63 = 1 := by omega
    have hle : ∀ n, (n ≥ 2 ^ 63) = (1 ≤ n / 2 ^ 63) := fun n => by
      rw [Nat.le_div_iff_mul_le (by positivity), Nat.one_mul]
    simp only [isNegative, hle, hdiv]
    rcases hcases with h | h
    · rw [h]
      rfl
    · rw [h]
      rfl

namespace Holds

theorem neg (h : Holds x n) : Holds x.neg (-n) := by
  obtain ⟨hmag, hsign⟩ := neg_bits x
  have hunits : x.neg.units = x.units := by rw [units, hmag, units]
  refine ⟨?_, ?_⟩
  · rw [isFinite, hmag]
    exact h.finite
  · rw [Int.neg_mul, ← h.scaled_eq, scaled, hsign, hunits, scaled]
    cases x.isNegative <;> simp

theorem sub (hx : Holds x m) (hy : Holds y n) (h : Moderate (m - n)) :
    Holds (x.sub y) (rounded (m - n)) := by
  rw [F64.sub, Int.sub_eq_add_neg]
  exact hx.add hy.neg (Int.sub_eq_add_neg ▸ h)

end Holds

-- ---------------------------------------------------------------------------
-- Order
-- ---------------------------------------------------------------------------

theorem unitsOf_lt_succ (m : Nat) : unitsOf m < unitsOf (m + 1) := by
  rcases Nat.lt_or_ge (m + 1) (2 ^ 52) with h | h
  · rw [unitsOf, unitsOf, if_pos (by omega), if_pos h]
    omega
  rcases Nat.lt_or_ge m (2 ^ 52) with hm | hm
  · obtain rfl : m = 2 ^ 52 - 1 := by omega
    decide
  · obtain ⟨f, e, hf, rfl⟩ : ∃ f e, f < 2 ^ 52 ∧ m = (e + 1) * 2 ^ 52 + f :=
      ⟨m % 2 ^ 52, m / 2 ^ 52 - 1, Nat.mod_lt _ (by decide), by omega⟩
    rw [unitsOf_mantissa hf]
    rcases Nat.lt_or_ge (f + 1) (2 ^ 52) with hf' | hf'
    · rw [Nat.add_assoc, unitsOf_mantissa hf']
      exact Nat.mul_lt_mul_of_pos_right (by omega) (by positivity)
    · obtain rfl : f = 2 ^ 52 - 1 := by omega
      rw [show (e + 1) * 2 ^ 52 + (2 ^ 52 - 1) + 1 = (e + 1 + 1) * 2 ^ 52 + 0 from by omega,
        unitsOf_mantissa (by decide)]
      calc (2 ^ 52 - 1 + 2 ^ 52) * 2 ^ e < (2 ^ 52 * 2) * 2 ^ e :=
            Nat.mul_lt_mul_of_pos_right (by decide) (by positivity)
        _ = (0 + 2 ^ 52) * 2 ^ (e + 1) := by ring

theorem unitsOf_lt_iff {m n : Nat} : unitsOf m < unitsOf n ↔ m < n :=
  (strictMono_nat_of_lt_succ unitsOf_lt_succ).lt_iff_lt

namespace Holds

/-- Patterns compare as the integers do. -/
theorem ieeeLt_iff (hx : Holds x m) (hy : Holds y n) : x.ieeeLt y = decide (m < n) := by
  have hpos : (0 : Int) < 2 ^ unitExp := by positivity
  have hscaled : x.scaled < y.scaled ↔ m < n := by
    rw [hx.scaled_eq, hy.scaled_eq]
    exact Int.mul_lt_mul_right hpos
  have hkey : x.orderKey < y.orderKey ↔ x.scaled < y.scaled := by
    have hlt := unitsOf_lt_iff (m := x.magnitude) (n := y.magnitude)
    have hgt := unitsOf_lt_iff (m := y.magnitude) (n := x.magnitude)
    have hzero : unitsOf 0 = 0 := rfl
    have hx0 := unitsOf_lt_iff (m := 0) (n := x.magnitude)
    have hy0 := unitsOf_lt_iff (m := 0) (n := y.magnitude)
    rw [hzero] at hx0 hy0
    simp only [orderKey, scaled, units]
    cases x.isNegative <;> cases y.isNegative <;> simp <;> omega
  rw [ieeeLt, hx.not_special.1, hy.not_special.1]
  simp [hkey, hscaled]

theorem max (hx : Holds x m) (hy : Holds y n) : Holds (x.max y) (Max.max m n) := by
  rw [F64.max, hx.not_special.1, hy.not_special.1, hx.ieeeLt_iff hy]
  simp only [Bool.false_eq_true, if_false, decide_eq_true_eq]
  split
  · rw [max_eq_right (by omega)]
    exact hy
  · rw [max_eq_left (by omega)]
    exact hx

theorem min (hx : Holds x m) (hy : Holds y n) : Holds (x.min y) (Min.min m n) := by
  rw [F64.min, hx.not_special.1, hy.not_special.1, hy.ieeeLt_iff hx]
  simp only [Bool.false_eq_true, if_false, decide_eq_true_eq]
  split
  · rw [min_eq_right (by omega)]
    exact hy
  · rw [min_eq_left (by omega)]
    exact hx

end Holds

-- ---------------------------------------------------------------------------
-- Conversions
-- ---------------------------------------------------------------------------

/-- The nearest value of an `i64`. -/
def clamp (n : Int) : Int := Max.max (-2 ^ 63) (Min.min n (2 ^ 63 - 1))

theorem holds_ofInt64 (v : Int64) : Holds (ofInt64 v) (rounded v.toInt) := by
  refine holds_ofScaled ?_
  have hlo := Int64.le_toInt v
  have hhi := Int64.toInt_lt v
  have hbound : v.toInt.natAbs ≤ 2 ^ 63 := by omega
  exact lt_of_le_of_lt hbound (by decide)

namespace Holds

theorem isIntegral (h : Holds x n) : x.isIntegral = true := by
  rw [F64.isIntegral, h.finite, h.units_eq, Nat.mul_mod_left]
  rfl

theorem truncate (h : Holds x n) : x.truncate = n := by
  rw [F64.truncate, h.units_eq, Nat.mul_div_cancel _ (by positivity)]
  rcases eq_or_ne n 0 with rfl | hn
  · simp
  · rw [h.isNegative_eq hn]
    rcases Int.lt_or_gt_of_ne hn with hlt | hgt
    · rw [decide_eq_true hlt, if_pos rfl]
      omega
    · rw [decide_eq_false (by omega), if_neg Bool.false_ne_true]
      omega

theorem toInt64 (h : Holds x n) : x.toInt64 = .ofInt (clamp n) := by
  rw [F64.toInt64, h.not_special.1, h.not_special.2, h.truncate]
  rfl

end Holds

/-- A double that is not special converts to its integer part. -/
theorem toInt64_of_finite (h : x.isFinite = true) : x.toInt64 = .ofInt (clamp x.truncate) := by
  simp only [isFinite, decide_eq_true_eq] at h
  have hnan : x.isNaN = false := decide_eq_false (by omega)
  have hinf : x.isInfinite = false := by
    simp only [isInfinite, beq_eq_false_iff_ne]
    omega
  rw [toInt64, hnan, hinf]
  rfl

theorem holds_div (hx : Holds x m) (hy : Holds y n) (hn : n ≠ 0) (hm : Moderate m) :
    (x.div y).isIntegral = (quotient m n).isSome ∧
      ∀ q ∈ quotient m n, (x.div y).toInt64 = .ofInt (clamp q) := by
  obtain ⟨hxn, hxi⟩ := hx.not_special
  obtain ⟨hyn, hyi⟩ := hy.not_special
  have hyz : y.isZero = false := by
    rw [Bool.eq_false_iff, ne_eq, hy.isZero_iff]
    exact hn
  have hround : roundUnits (x.units * 2 ^ unitExp) y.units =
      roundUnits (m.natAbs * 2 ^ unitExp) n.natAbs := by
    rw [hx.units_eq, hy.units_eq, roundUnits_mul_right (by positivity)]
  have hlt : m.natAbs * 2 ^ unitExp / n.natAbs < 2 ^ (200 + unitExp) :=
    lt_of_le_of_lt (Nat.div_le_self _ _) (units_lt_pow hm)
  rw [F64.div, hxn, hyn, hxi, hyi, hyz]
  simp only [Bool.or_self, Bool.false_eq_true, if_false]
  rw [hround]
  obtain ⟨hfin, hunits, hsign⟩ :=
    ofMagnitude_roundUnits (x.isNegative != y.isNegative) hlt (by decide)
  generalize ofMagnitude _ _ = v at hfin hunits hsign ⊢
  constructor
  · rw [isIntegral, hfin, hunits, quotient, Bool.true_and]
    generalize nearest _ _ % 2 ^ unitExp = r
    cases r with
    | zero => rfl
    | succ r => rfl
  · intro q hq
    rw [toInt64_of_finite hfin, truncate, hunits, hsign]
    simp only [Option.mem_def, quotient, Option.ite_none_right_eq_some, Option.some.injEq] at hq
    obtain ⟨_, rfl⟩ := hq
    rcases eq_or_ne m 0 with rfl | hm
    · rw [Int.natAbs_zero, Nat.zero_mul, nearest_zero, Nat.zero_div, Int.sign_zero, Int.zero_mul,
        Int.zero_mul]
      split <;> rfl
    · rw [hx.isNegative_eq hm, hy.isNegative_eq hn, bne_signs hm hn, ← Int.sign_mul]
      rcases Int.lt_or_gt_of_ne (mul_ne_zero hm hn) with hlt | hgt
      · rw [if_pos (decide_eq_true hlt), Int.sign_eq_neg_one_of_neg hlt, Int.neg_one_mul]
      · rw [if_neg (by rw [decide_eq_true_eq]; omega), Int.sign_eq_one_of_pos hgt, Int.one_mul]

end Sxla.F64
