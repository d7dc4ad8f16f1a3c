import Mathlib.Data.Nat.GCD.Basic
import Sxla.Fusion.Legality
import Sxla.Supertensor.Enumerator

/-!
# Extraction of the polytope

Whole-program analysis turns an arena's tensor ops into the polytope of
their schedules; a long one is cut down to its dominant ops.
-/

namespace Sxla

/-- The tensor type of a tensor or a buffer. -/
def Ty.asTensor : Ty → Option TensorType
  | .tensor t => some t
  | .memRef t _ => some t
  | _ => Option.none

namespace Wpa

def tensorBytes (t : TensorType) : Nat := Saturating.mul t.elem.byteSize t.shape.numElements

structure TensorOpInfo where
  opId : NodeId
  op : Op
  outShape : Shape
  elem : ScalarType
  inBytes : Nat
  consumers : List NodeId
deriving DecidableEq, Repr

def isScheduleableOp : Op → Bool
  | .matmul .. | .conv .. | .dot | .reduce .. | .binary _ | .unary _ => true
  | _ => false

/-- The tensor type of a node that can be scheduled. -/
def scheduleable (n : Node) : Option TensorType :=
  match n.ty with
  | .tensor t => if isScheduleableOp n.op then some t else none
  | _ => none

def isScheduleable (n : Node) : Bool := (scheduleable n).isSome

/-- The bytes of an operand that is a live tensor. -/
def operandBytes (a : IrArena) (v : ValueId) : Nat :=
  match a.node v.node with
  | .ok p => (p.ty.asTensor.map tensorBytes).getD 0
  | .error _ => 0

/-- The users of a node in slot order, one entry for each use. -/
def consumersOf (a : IrArena) (producer : NodeId) : List NodeId :=
  a.liveNodes.flatMap fun (id, n) =>
    (n.valueInputs.filter (·.node = producer)).map fun _ => id

def collectTensorOps (a : IrArena) : List TensorOpInfo :=
  a.liveNodes.filterMap fun (id, n) => (scheduleable n).map fun t =>
    { opId := id, op := n.op, outShape := t.shape, elem := t.elem
      inBytes := Saturating.sum (n.valueInputs.map (operandBytes a))
      consumers := consumersOf a id }

/-- A dim of an operand's tensor type. -/
def operandDim (a : IrArena) (n : Node) (input axis : Nat) : Nat :=
  match n.inputs[input]? with
  | none => 0
  | some v =>
    match a.node v.node with
    | .error _ => 0
    | .ok p => (p.ty.asTensor.bind (·.shape.dim axis)).getD 0

/-- The kernel's `kh * kw * ci`; 1 unless it is of rank four. -/
def kernelSize (a : IrArena) (n : Node) : Nat :=
  match n.inputs[1]? with
  | none => 1
  | some v =>
    match a.node v.node with
    | .error _ => 1
    | .ok p =>
      match p.ty.asTensor with
      | none => 1
      | some t =>
        if t.shape.rank = 4 then
          let d (axis : Nat) := max ((t.shape.dim axis).getD 1) 1
          Saturating.mul (Saturating.mul (d 2) (d 3)) (d 1)
        else
          1

def opFlops (a : IrArena) (info : TensorOpInfo) : Nat :=
  let elems := info.outShape.numElements
  match info.op with
  | .matmul .. =>
    match a.node info.opId with
    | .error _ => 0
    | .ok n =>
      let m := operandDim a n 0 0
      let k := operandDim a n 0 1
      Saturating.mul (Saturating.mul (Saturating.mul 2 m) (operandDim a n 1 1)) k
  | .conv .. =>
    match a.node info.opId with
    | .error _ => 0
    | .ok n => Saturating.mul (Saturating.mul 2 elems) (kernelSize a n)
  | .dot => Saturating.mul 2 elems
  | _ => elems

def outBytes (info : TensorOpInfo) : Nat :=
  Saturating.mul info.elem.byteSize info.outShape.numElements

/-- `dim as u32`, clamped by the hardware's tile; the source computes the gcd
by Euclid's loop. -/
def tileBound (hw : HardwareModel) (dim : Nat) : Nat :=
  max (Nat.gcd (dim % 0x100000000) hw.maxTile) 1

/-- The bound of an axis the shape has; 1 beyond its rank. -/
def tileMaxOf (hw : HardwareModel) (s : Shape) (axis : Nat) : Nat :=
  match s.dim axis with
  | none => 1
  | some dim => tileBound hw dim

def vecMaskOf (innermost : Nat) : Nat :=
  1 ||| (if innermost % 2 = 0 then 2 else 0) ||| (if innermost % 4 = 0 then 4 else 0) |||
    (if innermost % 8 = 0 then 8 else 0)

def emitOpBounds (a : IrArena) (hw : HardwareModel) (info : TensorOpInfo) : OpBounds :=
  let uses := info.consumers.length % 0x100000000
  let footprint := Saturating.mul (outBytes info) (max uses 1)
  let onChip := footprint ≤ hw.sramCapBytes
  { opId := info.opId
    tileMin := ⟨1, 1, 1⟩
    tileMax := ⟨tileMaxOf hw info.outShape 0, tileMaxOf hw info.outShape 1,
      tileMaxOf hw info.outShape 2⟩
    memMin := if onChip then .reg else .hbm
    memMax := if onChip then .sram else .hbm
    validFuse := info.consumers.filter (fusible a info.opId)
    vecMask := vecMaskOf (info.outShape.dims.getLast?.getD 1 % 0x100000000) }

def divisibility (hw : HardwareModel) (infos : List TensorOpInfo) : List DivConstraint :=
  infos.zipIdx.flatMap fun (info, i) =>
    (info.outShape.dims.take 3).zipIdx.map fun (dim, d) =>
      { opIndex := i % 0x10000, dim := d, divisor := tileBound hw dim }

def levelRow (op : Nat) : LinearRow := ⟨[(op, .mem, 1)], MemLevel.hbm.code⟩

/-- An output must go off chip when nothing uses it and its level is forced. -/
def minHbmOf (a : IrArena) (hw : HardwareModel) (info : TensorOpInfo) : Nat :=
  if info.consumers = [] ∧ (emitOpBounds a hw info).memMax = .hbm then outBytes info else 0

end Wpa

open Wpa in
def extractPolytope (a : IrArena) (hw : HardwareModel) : SchedulePolytope :=
  let infos := collectTensorOps a
  { opBounds := infos.map (emitOpBounds a hw)
    globalConstraints := ⟨(List.range infos.length).map fun i => levelRow (i % 0x10000)⟩
    divisibilityConstraints := divisibility hw infos
    hw
    opFlops := infos.map (opFlops a)
    opOutBytes := infos.map outBytes
    opInBytes := infos.map (·.inBytes)
    opMinHbm := infos.map (minHbmOf a hw) }

-- ---------------------------------------------------------------------------
-- Truncation
-- ---------------------------------------------------------------------------

namespace SchedulePolytope

/-- The positions of the dominant ops, in order. -/
def dominantOps (poly : SchedulePolytope) : List Nat :=
  (((List.range poly.opCount).mergeSort fun a b =>
      poly.flops b < poly.flops a || poly.flops a = poly.flops b && a ≤ b).take
    MAX_SCHED_OPS).mergeSort (· ≤ ·)

/-- An op's position among the kept ones. -/
def remap (keep : List Nat) (old : Nat) : Option Nat := keep.idxOf? old

def remapRow (keep : List Nat) (row : LinearRow) : Option LinearRow :=
  (row.entries.mapM fun e => (remap keep e.1).map (·, e.2)).map (⟨·, row.rhs⟩)

def remapDiv (keep : List Nat) (d : DivConstraint) : Option DivConstraint :=
  (remap keep d.opIndex).map fun opIndex => { d with opIndex }

end SchedulePolytope

open SchedulePolytope in
def truncatePolytope (poly : SchedulePolytope) : SchedulePolytope :=
  if poly.opCount ≤ MAX_SCHED_OPS then poly
  else
    let keep := poly.dominantOps
    { opBounds := keep.filterMap (poly.opBounds[·]?)
      globalConstraints := ⟨poly.globalConstraints.rows.filterMap (remapRow keep)⟩
      divisibilityConstraints := poly.divisibilityConstraints.filterMap (remapDiv keep)
      hw := poly.hw
      opFlops := keep.filterMap (poly.opFlops[·]?)
      opOutBytes := keep.filterMap (poly.opOutBytes[·]?)
      opInBytes := keep.filterMap (poly.opInBytes[·]?)
      opMinHbm := keep.filterMap (poly.opMinHbm[·]?) }

end Sxla
