import Sxla.Egraph.EGraph
import Sxla.Graph.Fold
import Sxla.Graph.Verifier

/-!
# Local rules

One rewrite per node at most: a fold of two constants, an operand that an
identity leaves, or an annihilation to zero. A rewrite without children is a
constant; one with a child passes the class of that child on.
-/

namespace Sxla

inductive ConstVal where
  | i (v : Int64)
  | f (v : F64)
deriving DecidableEq, Repr

/-- The const payload of an op, if any. -/
def constOfOp : Op → Option ConstVal
  | .constI64 v => some (.i v)
  | .constF64 v => some (.f v)
  | _ => none

structure Rewrite where
  op : Op
  children : List Nat
deriving DecidableEq, Repr

namespace Rewrite

def const (op : Op) : Rewrite := ⟨op, []⟩

/-- The reserved op that marks a pass-through. -/
def marker : Op := .param 0xFFFFFFFF

def passThrough (child : Nat) : Rewrite := ⟨marker, [child]⟩

end Rewrite

/-- Mismatched operand kinds do not fold. -/
def foldBinary (b : BinaryOp) : ConstVal → ConstVal → Option Op
  | .i x, .i y => (Fold.foldI64 b x y).map .constI64
  | .f x, .f y => (Fold.foldF64 b x y).map .constF64
  | _, _ => none

def isZeroInt (v : Option ConstVal) : Bool := v == some (.i 0)

def isOne (v : Option ConstVal) : Bool := v == some (.i 1)

/-- The operand that is left of the operation. -/
def useChild (b : BinaryOp) (x y : Nat) (cx cy : Option ConstVal) : Option Nat :=
  match b with
  | .add => if isZeroInt cy then some x else if isZeroInt cx then some y else none
  | .mul => if isOne cy then some x else none
  | .sub => if isZeroInt cy then some x else none
  | _ => none

/-- Whether the operation is zero for its operands' classes or constants. -/
def annihilates (b : BinaryOp) (x y : Nat) (cx cy : Option ConstVal) : Bool :=
  match b with
  | .sub => x == y
  | .mul => isZeroInt cy || isZeroInt cx
  | _ => false

/-- The source's arrays of four are padded with class 0 and no constant. -/
def localRules (op : Op) (children : List Nat) (consts : List (Option ConstVal))
    (elem : Option ScalarType) : Option Rewrite :=
  let isInt := elem == none || elem == some .i64
  match op with
  | .binary b =>
    let x := children.getD 0 0
    let y := children.getD 1 0
    let cx := consts.getD 0 none
    let cy := consts.getD 1 none
    let folded := cx.bind fun v => cy.bind fun w => foldBinary b v w
    match folded with
    | some op => some (.const op)
    | none =>
      if isInt then
        match useChild b x y cx cy with
        | some child => some (.passThrough child)
        | none => if annihilates b x y cx cy then some (.const (.constI64 0)) else none
      else none
  | _ => none

/-- Float operands are not swapped. -/
def commutative (op : Op) (elem : Option ScalarType) : Bool :=
  match op with
  | .binary b =>
    (b == .add || b == .mul || b == .max || b == .min) &&
      (elem == none || elem == some .i64 || elem == some .i32)
  | .reduce _ monoid => monoid == .max || monoid == .min || monoid == .and || monoid == .or
  | _ => false

variable {op : Op} {children : List Nat} {consts : List (Option ConstVal)}
  {elem : Option ScalarType} {r : Rewrite}

theorem useChild_eq_some {b : BinaryOp} {x y child : Nat} {cx cy : Option ConstVal}
    (h : useChild b x y cx cy = some child) : child = x ∨ child = y := by
  unfold useChild at h
  split at h
  · split at h
    · exact .inl (Option.some.inj h).symm
    · split at h
      · exact .inr (Option.some.inj h).symm
      · cases h
  · split at h
    · exact .inl (Option.some.inj h).symm
    · cases h
  · split at h
    · exact .inl (Option.some.inj h).symm
    · cases h
  · cases h

/-- The forms of a rewrite. -/
theorem localRules_cases (h : localRules op children consts elem = some r) :
    (∃ op', r = .const op') ∨
      ∃ child, r = .passThrough child ∧ (child = children.getD 0 0 ∨ child = children.getD 1 0) := by
  unfold localRules at h
  split at h
  · simp only at h
    split at h
    · next op' _ => exact .inl ⟨op', (Option.some.inj h).symm⟩
    · split at h
      · split at h
        · next child hchild =>
          exact .inr ⟨child, (Option.some.inj h).symm, useChild_eq_some hchild⟩
        · split at h
          · exact .inl ⟨_, (Option.some.inj h).symm⟩
          · cases h
      · cases h
  · cases h

end Sxla
