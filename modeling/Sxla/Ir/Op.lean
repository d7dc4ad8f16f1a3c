import Sxla.Ir.Id
import Sxla.Ir.Ty
import Sxla.Library.Binary64

/-!
# The opcode set

Every op of the five levels with its immediates, its purity and the two
contracts the verifier holds it to: how many value inputs it takes and
whether it produces a value.
-/

namespace Sxla

inductive Monoid where
  | add
  | mul
  | max
  | min
  | and
  | or
deriving DecidableEq, Repr

inductive Padding where
  | valid
  | same
deriving DecidableEq, Repr

inductive RngDist where
  | uniform
  | normal
deriving DecidableEq, Repr

inductive BinaryOp where
  | add
  | sub
  | mul
  | div
  | max
  | min
deriving DecidableEq, Repr

inductive UnaryOp where
  | relu
  | neg
  | exp
  | log
deriving DecidableEq, Repr

/-- `ifOp` is the source's `If`. -/
inductive Op where
  -- Level 0: graph
  | constI64 (v : Int64)
  | constF64 (v : F64)
  | param (index : UInt32)
  | dot
  | reduce (axis : UInt8) (monoid : Monoid)
  | rng (dist : RngDist) (seed : UInt64)
  | custom (sym : UInt32)
  | ifOp
  -- shared elementwise
  | binary (b : BinaryOp)
  | unary (u : UnaryOp)
  -- Level 1: tensor
  | matmul (transposeA transposeB : Bool)
  | conv (padding : Padding) (stride : UInt8)
  | broadcast (target : Shape)
  | transpose (perm : List UInt8) (rank : UInt8)
  -- Level 2: fusion
  | fusionCluster
  | fusionBarrier
  | fusionMaterialize
  -- Level 3: loop
  | loopParallel (axis : UInt8)
  | loopAlloc (bytes : UInt32) (space : AddressSpace)
  | loopAsyncCopy
  | loopPipelineStage (stage : UInt32)
  -- Level 4: target
  | targetMma
  | targetWarpShuffle
  | targetBarrier
deriving DecidableEq, Repr

namespace Op

def level : Op → IrLevel
  | .constI64 _ | .constF64 _ | .param _ | .dot | .reduce .. | .rng .. | .custom _ | .ifOp
  | .binary _ | .unary _ => .graph
  | .matmul .. | .conv .. | .broadcast _ | .transpose .. => .tensor
  | .fusionCluster | .fusionBarrier | .fusionMaterialize => .fusion
  | .loopParallel _ | .loopAlloc .. | .loopAsyncCopy | .loopPipelineStage _ => .loop
  | .targetMma | .targetWarpShuffle | .targetBarrier => .target

def isPure : Op → Bool
  | .fusionBarrier | .fusionMaterialize | .loopAlloc .. | .loopAsyncCopy
  | .loopPipelineStage _ | .targetBarrier | .targetWarpShuffle | .targetMma | .rng .. => false
  | .ifOp => false
  | .custom _ => false
  | _ => true

def isCustom : Op → Bool
  | .custom _ => true
  | _ => false

def hasEffect (op : Op) : Bool := !op.isPure || op.isCustom

def paramIndex : Op → Option UInt32
  | .param index => some index
  | _ => none

def isParam (op : Op) : Bool := op.paramIndex.isSome

@[simp] theorem paramIndex_eq_some {op : Op} : op.paramIndex = some k ↔ op = .param k := by
  cases op <;> simp [paramIndex]

theorem isParam_iff {op : Op} : op.isParam = true ↔ ∃ k, op = .param k := by
  simp [isParam, Option.isSome_iff_exists]

theorem hasEffect_eq (op : Op) : op.hasEffect = !op.isPure := by
  cases op <;> rfl

end Op

/-- The verifier's arity contract. -/
def expectedArity : Op → Nat
  | .constI64 _ | .constF64 _ | .param _ | .rng .. => 0
  | .dot => 2
  | .reduce .. | .custom _ | .unary _ | .broadcast _ | .transpose .. => 1
  | .ifOp => 1
  | .binary _ | .matmul .. | .conv .. => 2
  | .fusionCluster | .fusionBarrier | .fusionMaterialize => 0
  | .loopParallel _ | .loopAlloc .. | .loopAsyncCopy => 0
  | .loopPipelineStage _ => 0
  | .targetMma => 3
  | .targetWarpShuffle | .targetBarrier => 0

/-- Whether output slot 0 carries a value, as the verifier sees it. -/
def producesValue : Op → Bool
  | .fusionBarrier | .targetBarrier | .targetWarpShuffle | .loopAlloc .. | .loopAsyncCopy
  | .loopPipelineStage _ => false
  | _ => true

end Sxla
