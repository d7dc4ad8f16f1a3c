import Mathlib.Data.List.Basic

/-!
# Types

Scalar, tensor, token and buffer types. A shape carries the facts its only
constructors guarantee: at most four dims, each a positive `i64`.
-/

namespace Sxla

def MAX_RANK : Nat := 4

inductive ScalarType where
  | f64
  | i64
  | f32
  | i32
  | bool
deriving DecidableEq, Repr

namespace ScalarType

def code : ScalarType → UInt8
  | .f64 => 0
  | .i64 => 1
  | .f32 => 2
  | .i32 => 3
  | .bool => 4

def byteSize : ScalarType → Nat
  | .f64 | .i64 => 8
  | .f32 | .i32 => 4
  | .bool => 1

end ScalarType

inductive Layout where
  | rowMajor
  | colMajor
deriving DecidableEq, Repr

def Layout.code : Layout → UInt8
  | .rowMajor => 0
  | .colMajor => 1

structure Shape where
  dims : List Nat
  rank_le : dims.length ≤ MAX_RANK
  dims_pos : ∀ d ∈ dims, 0 < d
  dims_lt : ∀ d ∈ dims, d < 0x8000000000000000
deriving DecidableEq, Repr

inductive TypeError where
  | rankTooLarge
  | dimNonPositive
deriving DecidableEq, Repr

namespace Shape

theorem eq_of_dims {s t : Shape} (h : s.dims = t.dims) : s = t := by
  cases s; cases t; cases h; rfl

def scalar : Shape := ⟨[], by decide, by simp, by simp⟩

def fromDims (dims : List Int64) : Except TypeError Shape :=
  if hr : dims.length ≤ MAX_RANK then
    if hp : dims.all (0 < ·.toInt) = true then
      .ok
        { dims := dims.map (·.toInt.toNat)
          rank_le := by simpa using hr
          dims_pos := by
            intro d hd
            obtain ⟨x, hx, rfl⟩ := List.mem_map.mp hd
            have := of_decide_eq_true (List.all_eq_true.mp hp x hx)
            omega
          dims_lt := by
            intro d hd
            obtain ⟨x, _, rfl⟩ := List.mem_map.mp hd
            have := Int64.toInt_lt x
            omega }
    else
      .error .dimNonPositive
  else
    .error .rankTooLarge

def rank (s : Shape) : Nat := s.dims.length

def dim (s : Shape) (axis : Nat) : Option Nat := s.dims[axis]?

/-- `i64::saturating_mul` of two non-negative values. -/
def saturatingMul (a b : Nat) : Nat := min (a * b) 0x7fffffffffffffff

def numElements (s : Shape) : Nat := s.dims.foldl saturatingMul 1

end Shape

structure TensorType where
  elem : ScalarType
  shape : Shape
  layout : Layout
deriving DecidableEq, Repr

inductive AddressSpace where
  | global
  | shared
  | register
deriving DecidableEq, Repr

def AddressSpace.code : AddressSpace → UInt8
  | .global => 0
  | .shared => 1
  | .register => 2

/-- The source's `Type`. -/
inductive Ty where
  | scalar (elem : ScalarType)
  | tensor (t : TensorType)
  | token
  | memRef (t : TensorType) (space : AddressSpace)
  | none
deriving DecidableEq, Repr

end Sxla
