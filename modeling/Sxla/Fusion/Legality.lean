import Sxla.Ir.Arena

/-!
# Fusion legality

Whether a consumer may fuse with a producer.
-/

namespace Sxla

inductive LegalityError where
  | shapeIncompatible
  | reductionAxisConflict
  | reductionAxisInvalid
  | barrierBetween
  | effectful
  | layoutConversionTooExpensive
  | notTensorOp
deriving DecidableEq, Repr

namespace Legality

def isBarrier : Op → Bool
  | .fusionBarrier | .fusionMaterialize => true
  | _ => false

def isElementwise : Op → Bool
  | .binary _ | .unary _ => true
  | _ => false

def tensorShape (n : Node) : Option Shape :=
  match n.ty with
  | .tensor t => some t.shape
  | _ => none

/-- Dims agree from the innermost one on, or one of them is 1. -/
def shapesBroadcastCompatible (a b : Shape) : Except LegalityError Bool :=
  if (a.dims.reverse.zip b.dims.reverse).all fun (d, s) => d = s || d = 1 || s = 1 then .ok true
  else .error .shapeIncompatible

/-- A reduction may only run along the producer's innermost axis. -/
def canFuseReduce (axis rank : Nat) : Except LegalityError Bool :=
  if axis ≥ rank then .error .reductionAxisInvalid
  else if axis + 1 < rank then .error .reductionAxisConflict
  else .ok true

def canFuseShaped (op : Op) (producer consumer : Shape) : Except LegalityError Bool :=
  if isElementwise op then shapesBroadcastCompatible producer consumer
  else
    match op with
    | .reduce axis _ => canFuseReduce axis.toNat producer.rank
    | .matmul .. | .conv .. => .error .notTensorOp
    | _ => .ok (isElementwise op)

end Legality

open Legality in
def canFuse (a : IrArena) (p c : NodeId) : Except LegalityError Bool := do
  let prod ← (a.node p).mapError fun _ => .notTensorOp
  let cons ← (a.node c).mapError fun _ => .notTensorOp
  unless prod.op.isPure && cons.op.isPure do throw .effectful
  if isBarrier prod.op || isBarrier cons.op then throw .barrierBetween
  match tensorShape prod, tensorShape cons with
  | some producer, some consumer => canFuseShaped cons.op producer consumer
  | _, _ => return isElementwise cons.op

/-- `can_fuse(..).unwrap_or(false)`. -/
def fusible (a : IrArena) (p c : NodeId) : Bool :=
  match canFuse a p c with
  | .ok legal => legal
  | .error _ => false

end Sxla
