import Sxla.Levels.Level3

/-!
# The target program

`lower` turns each scheduled op into at most one instruction: the ops of the
fusion, loop and target levels have none, `if` and custom ops are refused.
-/

namespace Sxla

inductive TargetError where
  | unsupportedOp
  | badSlot
deriving DecidableEq, Repr

inductive Instr where
  | add (dst a b : Nat)
  | sub (dst a b : Nat)
  | mul (dst a b : Nat)
  | div (dst a b : Nat)
  | max (dst a b : Nat)
  | min (dst a b : Nat)
  | neg (dst a : Nat)
  | relu (dst a : Nat)
  | exp (dst a : Nat)
  | log (dst a : Nat)
  | dot (dst a b : Nat)
  | reduce (dst a : Nat) (axis : UInt8) (monoid : Monoid)
  | matmul (dst a b : Nat) (transposeA transposeB : Bool)
  | broadcast (dst a : Nat)
  | transpose (dst a : Nat)
  | conv (dst a b : Nat) (padding : Padding) (stride : UInt8)
  | rng (dst : Nat) (seed : UInt64) (dist : RngDist)
  | constF64 (dst : Nat) (v : F64)
  | constI64 (dst : Nat) (v : Int64)
  | mov (dst a : Nat)
deriving DecidableEq, Repr

namespace Instr

def dst : Instr → Nat
  | add dst .. | sub dst .. | mul dst .. | div dst .. | max dst .. | min dst .. => dst
  | neg dst _ | relu dst _ | exp dst _ | log dst _ => dst
  | dot dst .. | reduce dst .. | matmul dst .. | conv dst .. => dst
  | broadcast dst _ | transpose dst _ | rng dst .. | constF64 dst _ | constI64 dst _
  | mov dst _ => dst

/-- The slots the executor reads. A sample keeps the shape of the value its
destination holds so far. -/
def reads : Instr → List Nat
  | add _ a b | sub _ a b | mul _ a b | div _ a b | max _ a b | min _ a b => [a, b]
  | neg _ a | relu _ a | exp _ a | log _ a => [a]
  | dot _ a b | matmul _ a b .. | conv _ a b .. => [a, b]
  | reduce _ a .. | broadcast _ a | transpose _ a | mov _ a => [a]
  | rng dst .. => [dst]
  | constF64 .. | constI64 .. => []

end Instr

structure TargetProgram where
  instrs : List Instr
  results : List Nat
  valueCount : Nat
deriving DecidableEq, Repr

def lowerBinary (dst a b : Nat) : BinaryOp → Instr
  | .add => .add dst a b
  | .sub => .sub dst a b
  | .mul => .mul dst a b
  | .div => .div dst a b
  | .max => .max dst a b
  | .min => .min dst a b

def lowerUnary (dst a : Nat) : UnaryOp → Instr
  | .neg => .neg dst a
  | .relu => .relu dst a
  | .exp => .exp dst a
  | .log => .log dst a

/-- The instruction for one scheduled op, if it has one. -/
def lowerOp (sop : ScheduledOp) : Except TargetError (Option Instr) :=
  let dst := sop.output
  let a := sop.inputs.getD 0 0
  let b := sop.inputs.getD 1 0
  match sop.op with
  | .constI64 v => .ok (some (.constI64 dst v))
  | .constF64 v => .ok (some (.constF64 dst v))
  -- Params are pre-bound by the executor from call arguments.
  | .param _ => .ok none
  | .binary op => .ok (some (lowerBinary dst a b op))
  | .unary op => .ok (some (lowerUnary dst a op))
  | .dot => .ok (some (.dot dst a b))
  | .reduce axis monoid => .ok (some (.reduce dst a axis monoid))
  | .matmul ta tb => .ok (some (.matmul dst a b ta tb))
  | .conv padding stride => .ok (some (.conv dst a b padding stride))
  | .broadcast _ => .ok (some (.broadcast dst a))
  | .transpose .. => .ok (some (.transpose dst a))
  | .rng dist seed => .ok (some (.rng dst seed dist))
  | .ifOp => .error .unsupportedOp
  | .custom _ => .error .unsupportedOp
  | .fusionCluster | .fusionBarrier | .fusionMaterialize => .ok none
  | .loopParallel _ => .ok none
  | .loopAlloc .. => .ok none
  | .loopAsyncCopy => .ok none
  | .loopPipelineStage _ => .ok none
  | .targetMma | .targetWarpShuffle | .targetBarrier => .ok none

def lower (prog : LoopProgram) : Except TargetError TargetProgram := do
  let instrs ← prog.ops.mapM lowerOp
  return ⟨instrs.filterMap id, prog.results, prog.valueCount⟩

end Sxla
