import Sxla.Ir.Ty
import Sxla.Library.Binary64

/-!
# Runtime values
-/

namespace Sxla

inductive Value where
  | f64 (x : F64)
  | i64 (x : Int64)
  | tensor (data : List F64) (shape : Shape)
deriving DecidableEq, Repr

inductive ValueError where
  | lengthMismatch
deriving DecidableEq, Repr

namespace Value

/-- `Value::tensor`. -/
def mkTensor (data : List F64) (shape : Shape) : Except ValueError Value :=
  if data.length ≠ shape.numElements then .error .lengthMismatch
  else .ok (.tensor data shape)

def elementCount : Value → Nat
  | .f64 _ | .i64 _ => 1
  | .tensor _ shape => shape.numElements

def shape : Value → Shape
  | .f64 _ | .i64 _ => .scalar
  | .tensor _ shape => shape

end Value

end Sxla
