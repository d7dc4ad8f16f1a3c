import Mathlib.Data.Nat.Log
import Mathlib.Tactic.Ring

/-!
# IEEE 754 binary64 on bit patterns

A double is its 64-bit pattern. A finite double is an integer multiple of
`2^-1074`, so arithmetic is done on those integers and rounded once, to
nearest with ties to even. Every definition computes.

A NaN result is the one quiet NaN with an empty payload: the language leaves
its sign and payload open.
-/

namespace Sxla

structure F64 where
  bits : UInt64
deriving DecidableEq, Repr

namespace F64

-- ---------------------------------------------------------------------------
-- Decoding
-- ---------------------------------------------------------------------------

/-- The pattern without the sign bit. -/
def magnitude (x : F64) : Nat := x.bits.toNat % 2 ^ 63

def isNegative (x : F64) : Bool := x.bits.toNat ≥ 2 ^ 63

/-- A unit is `2^-unitExp`. -/
def unitExp : Nat := 1074

/-- The magnitude of infinity. -/
def infMagnitude : Nat := 2047 * 2 ^ 52

def isNaN (x : F64) : Bool := x.magnitude > infMagnitude

def isInfinite (x : F64) : Bool := x.magnitude == infMagnitude

def isFinite (x : F64) : Bool := x.magnitude < infMagnitude

def isZero (x : F64) : Bool := x.magnitude == 0

/-- The absolute value of a finite pattern in units. -/
def unitsOf (magnitude : Nat) : Nat :=
  if magnitude < 2 ^ 52 then magnitude
  else (magnitude % 2 ^ 52 + 2 ^ 52) * 2 ^ (magnitude / 2 ^ 52 - 1)

def units (x : F64) : Nat := unitsOf x.magnitude

/-- The value of a finite double in units. -/
def scaled (x : F64) : Int := if x.isNegative then -(x.units : Int) else x.units

-- ---------------------------------------------------------------------------
-- Encoding
-- ---------------------------------------------------------------------------

def ofMagnitude (negative : Bool) (magnitude : Nat) : F64 :=
  ⟨.ofNat ((if negative then 2 ^ 63 else 0) + magnitude)⟩

def nan : F64 := ofMagnitude false (infMagnitude + 2 ^ 51)

def infinity (negative : Bool) : F64 := ofMagnitude negative infMagnitude

def zero (negative : Bool) : F64 := ofMagnitude negative 0

/-- `num / den` to the nearest integer, ties to even. -/
def divEven (num den : Nat) : Nat :=
  let q := num / den
  let r := num % den
  if 2 * r > den || (2 * r == den && q % 2 == 1) then q + 1 else q

/-- The magnitude nearest to `num / den` units of `2^-1074`. The quotient
keeps 53 bits; a carry out of them moves into the exponent by itself. -/
def roundUnits (num den : Nat) : Nat :=
  let shift := (num / den).log2 - 52
  min (shift * 2 ^ 52 + divEven num (den * 2 ^ shift)) infMagnitude

/-- The double nearest to `num / den`. -/
def ofRatio (negative : Bool) (num den : Nat) : F64 :=
  ofMagnitude negative (roundUnits (num * 2 ^ unitExp) den)

/-- The double nearest to `n / den` units of `2^-1074`; a zero is positive. -/
def ofScaled (n : Int) (den : Nat) : F64 :=
  ofMagnitude (n < 0) (roundUnits n.natAbs den)

-- ---------------------------------------------------------------------------
-- Comparison
-- ---------------------------------------------------------------------------

/-- A key that orders all patterns but NaN; both zeros have key 0. -/
def orderKey (x : F64) : Int := if x.isNegative then -(x.magnitude : Int) else x.magnitude

/-- IEEE equality: NaN differs from everything, the two zeros agree. -/
def ieeeEq (x y : F64) : Bool := !x.isNaN && !y.isNaN && x.orderKey == y.orderKey

def ieeeLt (x y : F64) : Bool := !x.isNaN && !y.isNaN && x.orderKey < y.orderKey

-- ---------------------------------------------------------------------------
-- Arithmetic
-- ---------------------------------------------------------------------------

def neg (x : F64) : F64 := ⟨x.bits ^^^ 0x8000000000000000⟩

def add (x y : F64) : F64 :=
  if x.isNaN || y.isNaN then nan
  else if x.isInfinite then
    if y.isInfinite && x.isNegative != y.isNegative then nan else x
  else if y.isInfinite then y
  else if x.isZero && y.isZero then zero (x.isNegative && y.isNegative)
  else ofScaled (x.scaled + y.scaled) 1

def sub (x y : F64) : F64 := add x (neg y)

def mul (x y : F64) : F64 :=
  let negative := x.isNegative != y.isNegative
  if x.isNaN || y.isNaN then nan
  else if x.isInfinite || y.isInfinite then
    if x.isZero || y.isZero then nan else infinity negative
  else ofMagnitude negative (roundUnits (x.units * y.units) (2 ^ unitExp))

def div (x y : F64) : F64 :=
  let negative := x.isNegative != y.isNegative
  if x.isNaN || y.isNaN then nan
  else if x.isInfinite then
    if y.isInfinite then nan else infinity negative
  else if y.isInfinite then zero negative
  else if y.isZero then
    if x.isZero then nan else infinity negative
  else ofMagnitude negative (roundUnits (x.units * 2 ^ unitExp) y.units)

/-- The other operand where one is NaN; the first of two zeros. -/
def max (x y : F64) : F64 :=
  if x.isNaN then y else if y.isNaN then x else if ieeeLt x y then y else x

def min (x y : F64) : F64 :=
  if x.isNaN then y else if y.isNaN then x else if ieeeLt y x then y else x

/-- The square root; a remainder of the integer root breaks ties upwards,
which an inexact root never meets exactly. -/
def sqrt (x : F64) : F64 :=
  if x.isNaN then nan
  else if x.isZero then x
  else if x.isNegative then nan
  else if x.isInfinite then x
  else
    let n := x.units * 2 ^ 2400
    let root := n.sqrt
    let sticky := if root * root = n then 0 else 1
    -- the root is in units of 2^-1737, the rounding wants 2^-1074
    ofMagnitude false (roundUnits (2 * root + sticky) (2 ^ 664))

-- ---------------------------------------------------------------------------
-- Integers
-- ---------------------------------------------------------------------------

/-- `i64 as f64`. -/
def ofInt64 (n : Int64) : F64 := ofScaled (n.toInt * 2 ^ unitExp) 1

/-- `u64 as f64`. -/
def ofUInt64 (n : UInt64) : F64 := ofMagnitude false (roundUnits (n.toNat * 2 ^ unitExp) 1)

/-- `fract() == 0.0`. -/
def isIntegral (x : F64) : Bool := x.isFinite && x.units % 2 ^ unitExp == 0

/-- The integer part of a finite double, towards zero. -/
def truncate (x : F64) : Int :=
  if x.isNegative then -(x.units / 2 ^ unitExp : Nat) else (x.units / 2 ^ unitExp : Nat)

/-- `f64 as i64`: towards zero, saturating, zero for NaN. -/
def toInt64 (x : F64) : Int64 :=
  if x.isNaN then 0
  else if x.isInfinite then if x.isNegative then .minValue else .maxValue
  else .ofInt (Max.max (-2 ^ 63) (Min.min x.truncate (2 ^ 63 - 1)))

end F64

/-- `f64::exp`, `f64::ln` and `f64::cos`. -/
structure Libm where
  exp : F64 → F64
  ln : F64 → F64
  cos : F64 → F64

/-- Stands in where no program calls the library. -/
def Libm.absent : Libm := ⟨fun _ => .nan, fun _ => .nan, fun _ => .nan⟩

end Sxla
