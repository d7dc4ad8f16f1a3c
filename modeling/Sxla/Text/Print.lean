import Sxla.Ir.Arena
import Sxla.Library.Binary64Text

/-!
# The printer

Canonical text, version 1: one line a node, in slot order within its region,
the two regions of an `if` nested under it. Text is a list of characters.
-/

namespace Sxla

abbrev Text := List Char

/-- The deepest nesting that text may have. -/
def MAX_NEST : Nat := 256

-- ---------------------------------------------------------------------------
-- Names
-- ---------------------------------------------------------------------------

def monoidName : Monoid → String
  | .add => "add"
  | .mul => "mul"
  | .max => "max"
  | .min => "min"
  | .and => "and"
  | .or => "or"

def binaryName : BinaryOp → String
  | .add => "add"
  | .sub => "sub"
  | .mul => "mul"
  | .div => "div"
  | .max => "max"
  | .min => "min"

def unaryName : UnaryOp → String
  | .relu => "relu"
  | .neg => "neg"
  | .exp => "exp"
  | .log => "log"

def paddingName : Padding → String
  | .valid => "valid"
  | .same => "same"

def distName : RngDist → String
  | .uniform => "uniform"
  | .normal => "normal"

def spaceName : AddressSpace → String
  | .global => "global"
  | .shared => "shared"
  | .register => "register"

def elemName : ScalarType → String
  | .f64 => "f64"
  | .i64 => "i64"
  | .f32 => "f32"
  | .i32 => "i32"
  | .bool => "bool"

def layoutName : Layout → String
  | .rowMajor => "row"
  | .colMajor => "col"

def boolName : Bool → String
  | true => "true"
  | false => "false"

-- ---------------------------------------------------------------------------
-- Ops and types
-- ---------------------------------------------------------------------------

namespace Print

open Decimal (digits signed)

def joined (sep : String) (items : List Text) : Text := sep.toList.intercalate items

def shapeStr (s : Shape) : Text := joined "," (s.dims.map digits)

/-- The float constants that are spelled by their bits: not finite, or
integral from `2^63` on. -/
def needsBits (v : F64) : Bool :=
  !v.isFinite || (v.isIntegral && 2 ^ 63 * 2 ^ F64.unitExp ≤ v.units)

def formatF64 (v : F64) : Text :=
  if needsBits v then
    "bits ".toList ++ digits (v.bits.toNat / 2 ^ 32) ++ " ".toList ++
      digits (v.bits.toNat % 2 ^ 32)
  else if v.isIntegral && v.units < 10 ^ 15 * 2 ^ F64.unitExp then v.displayTenths
  else if v.isIntegral then v.displayWhole
  else v.displayFraction

def formatOp : Op → Text
  | .constI64 v => "const.i64 ".toList ++ signed v.toInt
  | .constF64 v => "const.f64 ".toList ++ formatF64 v
  | .param index => "param ".toList ++ digits index.toNat
  | .dot => "dot".toList
  | .reduce axis monoid =>
    "reduce axis=".toList ++ digits axis.toNat ++ " monoid=".toList ++ (monoidName monoid).toList
  | .rng dist seed =>
    "rng dist=".toList ++ (distName dist).toList ++ " seed=".toList ++ digits seed.toNat
  | .custom sym => "custom ".toList ++ digits sym.toNat
  | .ifOp => "if".toList
  | .binary b => "binary.".toList ++ (binaryName b).toList
  | .unary u => "unary.".toList ++ (unaryName u).toList
  | .matmul ta tb =>
    "matmul ta=".toList ++ (boolName ta).toList ++ " tb=".toList ++ (boolName tb).toList
  | .conv padding stride =>
    "conv padding=".toList ++ (paddingName padding).toList ++ " stride=".toList ++
      digits stride.toNat
  | .broadcast target => "broadcast to=[".toList ++ shapeStr target ++ "]".toList
  | .transpose perm rank =>
    "transpose perm=[".toList ++ joined "," ((perm.take rank.toNat).map (digits ·.toNat)) ++
      "]".toList
  | .fusionCluster => "fusion.cluster".toList
  | .fusionBarrier => "fusion.barrier".toList
  | .fusionMaterialize => "fusion.materialize".toList
  | .loopParallel axis => "loop.parallel axis=".toList ++ digits axis.toNat
  | .loopAlloc bytes space =>
    "loop.alloc bytes=".toList ++ digits bytes.toNat ++ " space=".toList ++ (spaceName space).toList
  | .loopAsyncCopy => "loop.async_copy".toList
  | .loopPipelineStage stage => "loop.pipeline_stage stage=".toList ++ digits stage.toNat
  | .targetMma => "target.mma".toList
  | .targetWarpShuffle => "target.warp_shuffle".toList
  | .targetBarrier => "target.barrier".toList

def formatTensor (kind : String) (t : TensorType) : Text :=
  kind.toList ++ "<".toList ++ (elemName t.elem).toList ++ ">[".toList ++ shapeStr t.shape ++
    "] ".toList ++ (layoutName t.layout).toList

def formatType : Ty → Text
  | .scalar s => "scalar<".toList ++ (elemName s).toList ++ ">".toList
  | .tensor t => formatTensor "tensor" t
  | .token => "token".toList
  | .memRef t space => formatTensor "memref" t ++ " ".toList ++ (spaceName space).toList
  | .none => "none".toList

-- ---------------------------------------------------------------------------
-- Arenas
-- ---------------------------------------------------------------------------

/-- `"  ".repeat(depth)`. -/
def pad (depth : Nat) : Text := List.replicate (2 * depth) ' '

/-- `{pad}%{def} = `. -/
def lineStart (depth slot : Nat) : Text := pad depth ++ '%' :: digits slot ++ " = ".toList

def formatUses (uses : List Nat) : Text := joined ", " (uses.map fun u => '%' :: digits u)

def nodeLine (depth slot : Nat) (op : Op) (uses : List Nat) (ty : Ty) : Text :=
  lineStart depth slot ++ formatOp op ++ " ".toList ++ formatUses uses ++ " : ".toList ++
    formatType ty

def ifLine (depth slot : Nat) (uses : List Nat) (ty : Ty) : Text :=
  lineStart depth slot ++ "if ".toList ++ formatUses uses ++ " : ".toList ++ formatType ty ++
    " \x7b".toList

def elseLine (depth : Nat) : Text := pad depth ++ "\x7d else \x7b".toList

def endLine (depth : Nat) : Text := pad depth ++ "\x7d".toList

/-- The line of an `if` that does not own two regions. -/
def flatLine (depth slot : Nat) (uses : List Nat) : Text :=
  lineStart depth slot ++ "if ".toList ++ formatUses uses

/-- The live nodes of a region, in slot order. -/
def perRegion (a : IrArena) (ridx : Nat) : List NodeId :=
  if ridx < a.regionCount then
    (a.liveNodes.filter fun (_, n) => n.region.index == ridx).map (·.1)
  else []

/-- The regions that a node owns, in index order. -/
def ownedRegions (a : IrArena) (id : NodeId) : List RegionId :=
  (a.allRegions.filter fun (_, r) => r.owner == id).map (·.1)

/-- The lines of one region. The fuel is what is left of `MAX_NEST` at this
depth; beyond it nothing is listed. -/
def printRegionNodes (a : IrArena) : Nat → RegionId → Nat → List Text
  | 0, _, _ => []
  | fuel + 1, region, depth =>
    (perRegion a region.index).flatMap fun id =>
      match a.node id with
      | .error _ => []
      | .ok n =>
        let uses := n.valueInputs.map (·.node.index)
        if n.op == .ifOp then
          match ownedRegions a id with
          | [thenR, elseR] =>
            [ifLine depth id.index uses n.ty] ++ printRegionNodes a fuel thenR (depth + 1) ++
              [elseLine depth] ++ printRegionNodes a fuel elseR (depth + 1) ++ [endLine depth]
          | owned =>
            flatLine depth id.index uses ::
              owned.flatMap fun rid => printRegionNodes a fuel rid (depth + 1)
        else [nodeLine depth id.index n.op uses n.ty]

end Print

open Print

def printArena (a : IrArena) : String :=
  .ofList ("xir v1 func @main \x7b\n".toList ++
    joined "\n" (printRegionNodes a MAX_NEST a.rootRegion 1) ++ "\n\x7d\n".toList)

end Sxla
