import Sxla.Ir.Live
import Sxla.Library.CheckedInt

/-!
# Constant folding

Elementwise nodes on constants become constants in place. Integer operands
fold in checked 64-bit arithmetic; otherwise both operands are read as
doubles, an integer constant by conversion.
-/

namespace Sxla.Fold

variable (libm : Libm)

def constI64Of (a : IrArena) (v : ValueId) : Option Int64 :=
  match a.node v.node with
  | .error _ => none
  | .ok n =>
    match n.op with
    | .constI64 x => some x
    | _ => none

def constF64Of (a : IrArena) (v : ValueId) : Option F64 :=
  match a.node v.node with
  | .error _ => none
  | .ok n =>
    match n.op with
    | .constF64 x => some x
    | .constI64 x => some (.ofInt64 x)
    | _ => none

def foldUnary (u : UnaryOp) (v : F64) : Option F64 :=
  match u with
  | .neg => some v.neg
  | .relu => some (v.max (.zero false))
  | .exp => some (libm.exp v)
  | .log => if (F64.zero false).ieeeLt v then some (libm.ln v) else none

def foldI64 (b : BinaryOp) (x y : Int64) : Option Int64 :=
  match b with
  | .add => CheckedInt.add x y
  | .sub => CheckedInt.sub x y
  | .mul => CheckedInt.mul x y
  | .div => CheckedInt.div x y
  | .max => some (max x y)
  | .min => some (min x y)

def foldF64 (b : BinaryOp) (x y : F64) : Option F64 :=
  match b with
  | .add => some (x.add y)
  | .sub => some (x.sub y)
  | .mul => some (x.mul y)
  | .div => if y.isZero then none else some (x.div y)
  | .max => some (x.max y)
  | .min => some (x.min y)

def asConstF64 (n : Node) (v : F64) : Node := { n with op := .constF64 v, inputs := [] }

def asConstI64 (n : Node) (v : Int64) : Node :=
  { n with op := .constI64 v, ty := .scalar .i64, inputs := [] }

/-- What a node turns into, if it folds. -/
def folded (a : IrArena) (n : Node) : Option Node :=
  match n.op with
  | .unary u => do
    let v ← constF64Of a (← n.inputs[0]?)
    return asConstF64 n (← foldUnary libm u v)
  | .binary b => do
    let av ← n.inputs[0]?
    let bv ← n.inputs[1]?
    match constI64Of a av, constI64Of a bv with
    | some x, some y => return asConstI64 n (← foldI64 b x y)
    | _, _ =>
      let x ← constF64Of a av
      let y ← constF64Of a bv
      return asConstF64 n (← foldF64 b x y)
  | _ => none

def visit (s : IrArena × Nat) (id : NodeId) : IrArena × Nat :=
  match s.1.node id with
  | .error _ => s
  | .ok n =>
    match folded libm s.1 n with
    | none => s
    | some m => (s.1.rewrite id fun _ => m, s.2 + 1)

/-- The folded arena and the number of folds. -/
def run (a : IrArena) : IrArena × Nat := a.liveIds.foldl (visit libm) (a, 0)

variable {libm} {a : IrArena}

theorem visit_sameHandles (s : IrArena × Nat) (id : NodeId) :
    IrArena.SameHandles s.1 (visit libm s id).1 := by
  unfold visit
  split
  · exact .refl
  · split
    · exact .refl
    · exact IrArena.rewrite_sameHandles

theorem run_sameHandles : a.SameHandles (run libm a).1 := by
  have hgo : ∀ (l : List NodeId) (s : IrArena × Nat),
      IrArena.SameHandles s.1 (l.foldl (visit libm) s).1 := by
    intro l
    induction l with
    | nil => exact fun s => .refl
    | cons id l ih => exact fun s => (visit_sameHandles s id).trans (ih _)
  exact hgo a.liveIds (a, 0)

end Sxla.Fold
