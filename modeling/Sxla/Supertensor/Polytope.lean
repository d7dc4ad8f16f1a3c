import Mathlib.Data.List.Basic
import Sxla.Ir.Id
import Sxla.Library.Saturating

/-!
# The schedule polytope

The per-op bounds, the sparse linear rows, the divisibility constraints and
the hardware model that a schedule is checked against. Machine words are
natural numbers; where the source saturates, so does the model.
-/

namespace Sxla

inductive MemLevel where
  | reg
  | sram
  | hbm
deriving DecidableEq, Repr

namespace MemLevel

def code : MemLevel → Nat
  | .reg => 0
  | .sram => 1
  | .hbm => 2

def fromU8 : Nat → Option MemLevel
  | 0 => some .reg
  | 1 => some .sram
  | 2 => some .hbm
  | _ => none

@[simp] theorem fromU8_code (m : MemLevel) : fromU8 m.code = some m := by
  cases m <;> rfl

end MemLevel

structure HardwareModel where
  sramCapBytes : Nat
  regPeakFlopsPerCycle : Nat
  sramPeakFlopsPerCycle : Nat
  hbmPeakFlopsPerCycle : Nat
  sramBwBytesPerCycle : Nat
  hbmBwBytesPerCycle : Nat
  maxTile : Nat
deriving DecidableEq, Repr

def HardwareModel.reference : HardwareModel where
  sramCapBytes := 64 * 1024
  regPeakFlopsPerCycle := 32
  sramPeakFlopsPerCycle := 16
  hbmPeakFlopsPerCycle := 4
  sramBwBytesPerCycle := 256
  hbmBwBytesPerCycle := 64
  maxTile := 256

inductive ParamKind where
  | mem
  | tile0
  | tile1
  | tile2
  | vec
deriving DecidableEq, Repr

-- ---------------------------------------------------------------------------
-- Schedules
-- ---------------------------------------------------------------------------

/-- The source's `[u32; 3]`. -/
structure Tile where
  t0 : Nat
  t1 : Nat
  t2 : Nat
deriving DecidableEq, Repr

/-- Constraints index dims below three. -/
def Tile.dim (t : Tile) : Nat → Nat
  | 0 => t.t0
  | 1 => t.t1
  | _ => t.t2

structure PackedOpSched where
  opId : NodeId
  tile : Tile
  fuseTarget : NodeId
  memLevel : Nat
  vecWidth : Nat
deriving DecidableEq, Repr

namespace PackedOpSched

/-- The word `u64::MAX - 1`. -/
def NO_FUSE : NodeId := ⟨0xfffffffe, 0xffff, 7, 511, 15⟩

def mem (s : PackedOpSched) : Option MemLevel := MemLevel.fromU8 s.memLevel

def fused (s : PackedOpSched) : Bool := s.fuseTarget != NO_FUSE

def paramValue (s : PackedOpSched) : ParamKind → Int
  | .mem => s.memLevel
  | .tile0 => s.tile.t0
  | .tile1 => s.tile.t1
  | .tile2 => s.tile.t2
  | .vec => s.vecWidth

end PackedOpSched

/-- `u8::is_power_of_two` and the bit of the mask at `trailing_zeros`. -/
def validWidth (mask width : Nat) : Bool :=
  width != 0 && width &&& (width - 1) == 0 && width ≤ 8 && mask.testBit width.log2

-- ---------------------------------------------------------------------------
-- Constraints
-- ---------------------------------------------------------------------------

structure LinearRow where
  /-- Op index, parameter and coefficient. -/
  entries : List (Nat × ParamKind × Int)
  rhs : Int
deriving DecidableEq, Repr

namespace LinearRow

/-- The row's left-hand side; an op outside the schedule counts as zero. -/
def lhs (row : LinearRow) (sched : List PackedOpSched) : Int :=
  row.entries.foldl (fun acc (op, param, coeff) =>
    Saturating.addInt acc (Saturating.mulInt coeff
      ((sched[op]?.map (·.paramValue param)).getD 0))) 0

def holds (row : LinearRow) (sched : List PackedOpSched) : Bool := row.lhs sched ≤ row.rhs

/-- All its parameters belong to the first `depth` ops. -/
def bound (row : LinearRow) (depth : Nat) : Bool := row.entries.all (·.1 < depth)

end LinearRow

structure SparseLinearSystem where
  rows : List LinearRow
deriving DecidableEq, Repr

namespace SparseLinearSystem

def checkFull (sys : SparseLinearSystem) (sched : List PackedOpSched) : Bool :=
  sys.rows.all (·.holds sched)

def checkPartial (sys : SparseLinearSystem) (sched : List PackedOpSched) (depth : Nat) : Bool :=
  sys.rows.all fun row => !row.bound depth || row.holds sched

end SparseLinearSystem

structure DivConstraint where
  opIndex : Nat
  dim : Nat
  divisor : Nat
deriving DecidableEq, Repr

/-- The tile divides the constraint's divisor. -/
def DivConstraint.holds (d : DivConstraint) (t : Tile) : Bool :=
  t.dim d.dim != 0 && d.divisor % t.dim d.dim == 0

structure OpBounds where
  opId : NodeId
  tileMin : Tile
  tileMax : Tile
  memMin : MemLevel
  memMax : MemLevel
  validFuse : List NodeId
  vecMask : Nat
deriving DecidableEq, Repr

namespace OpBounds

def tileInRange (b : OpBounds) (t : Tile) : Bool :=
  [0, 1, 2].all fun d => b.tileMin.dim d ≤ t.dim d && t.dim d ≤ b.tileMax.dim d

def memInRange (b : OpBounds) (m : MemLevel) : Bool :=
  b.memMin.code ≤ m.code && m.code ≤ b.memMax.code

def fuseAllowed (b : OpBounds) (s : PackedOpSched) : Bool :=
  !s.fused || b.validFuse.contains s.fuseTarget

end OpBounds

inductive ConstraintViolation where
  | boundViolation (op : UInt16)
  | divViolation (op : UInt16) (dim : UInt8)
  | linearViolation (row : UInt16)
  | sramOverflow (pressure : Nat)
  | unknownOp (op : UInt16)
  | fuseIllegal (op : UInt16)
deriving DecidableEq, Repr

structure SchedulePolytope where
  opBounds : List OpBounds
  globalConstraints : SparseLinearSystem
  divisibilityConstraints : List DivConstraint
  hw : HardwareModel
  opFlops : List Nat
  opOutBytes : List Nat
  opInBytes : List Nat
  opMinHbm : List Nat
deriving DecidableEq, Repr

namespace SchedulePolytope

def opCount (poly : SchedulePolytope) : Nat := poly.opBounds.length

def outBytes (poly : SchedulePolytope) (i : Nat) : Nat := poly.opOutBytes.getD i 0

/-- The checks `check_full` makes of one op. -/
def checkOp (b : OpBounds) (i : Nat) (s : PackedOpSched) : Except ConstraintViolation Unit := do
  unless s.opId = b.opId do throw (.unknownOp (.ofNat i))
  unless b.tileInRange s.tile do throw (.boundViolation (.ofNat i))
  unless s.mem.any b.memInRange do throw (.boundViolation (.ofNat i))
  unless validWidth b.vecMask s.vecWidth do throw (.boundViolation (.ofNat i))
  unless b.fuseAllowed s do throw (.fuseIllegal (.ofNat i))

def checkDiv (sched : List PackedOpSched) (d : DivConstraint) :
    Except ConstraintViolation Unit := do
  unless sched[d.opIndex]?.any (d.holds ·.tile) do
    throw (.divViolation (.ofNat d.opIndex) (.ofNat d.dim))

/-- The outputs placed in SRAM. -/
def pressure (poly : SchedulePolytope) (sched : List PackedOpSched) : Nat :=
  Saturating.sum (sched.zipIdx.map fun (s, i) =>
    if s.mem = some .sram then poly.outBytes i else 0)

/-- The position of the first row that does not hold. -/
def firstFailing (poly : SchedulePolytope) (sched : List PackedOpSched) : Nat :=
  (poly.globalConstraints.rows.findIdx? (!·.holds sched)).getD 0

/-- A divisibility constraint on an op outside the schedule makes the source
panic; here it is a violation. -/
def checkFull (poly : SchedulePolytope) (sched : List PackedOpSched) :
    Except ConstraintViolation Unit := do
  unless sched.length = poly.opBounds.length do throw (.unknownOp (.ofNat sched.length))
  (poly.opBounds.zip sched).zipIdx.forM fun ((b, s), i) => checkOp b i s
  poly.divisibilityConstraints.forM (checkDiv sched)
  unless poly.globalConstraints.checkFull sched do
    throw (.linearViolation (.ofNat (poly.firstFailing sched)))
  unless poly.pressure sched ≤ poly.hw.sramCapBytes do
    throw (.sramOverflow (poly.pressure sched))

end SchedulePolytope

end Sxla
