import Sxla.Supertensor.Polytope

/-!
# The roofline cost

A complete schedule's cycles, off-chip traffic and on-chip footprint, each a
saturating sum over its ops.
-/

namespace Sxla

structure CostPoint where
  cycles : Nat
  hbmBytes : Nat
  sramUsage : Nat
deriving DecidableEq, Repr

/-- No worse on any axis and better on one. -/
def dominates (a b : CostPoint) : Bool :=
  (a.cycles ≤ b.cycles && a.hbmBytes ≤ b.hbmBytes && a.sramUsage ≤ b.sramUsage) &&
    (a.cycles < b.cycles || a.hbmBytes < b.hbmBytes || a.sramUsage < b.sramUsage)

theorem dominates_iff {a b : CostPoint} :
    dominates a b = true ↔
      (a.cycles ≤ b.cycles ∧ a.hbmBytes ≤ b.hbmBytes ∧ a.sramUsage ≤ b.sramUsage) ∧
        (a.cycles < b.cycles ∨ a.hbmBytes < b.hbmBytes ∨ a.sramUsage < b.sramUsage) := by
  simp [dominates, and_assoc, or_assoc]

theorem dominates_irrefl (a : CostPoint) : dominates a a = false := by
  simp [dominates]

theorem dominates_trans {a b c : CostPoint} (hab : dominates a b = true)
    (hbc : dominates b c = true) : dominates a c = true := by
  simp only [dominates_iff] at *
  omega

def ceilDiv (n d : Nat) : Nat := if d = 0 then 0 else (n + d - 1) / d

/-- The peak at a placement, scaled down to the lanes in use. -/
def peakFlops (hw : HardwareModel) (mem : MemLevel) (width : Nat) : Nat :=
  let base := match mem with
    | .reg => hw.regPeakFlopsPerCycle
    | .sram => hw.sramPeakFlopsPerCycle
    | .hbm => hw.hbmPeakFlopsPerCycle
  max (Saturating.mul base (max 1 (min width 8)) / 8) 1

namespace SchedulePolytope

variable (poly : SchedulePolytope)

def flops (i : Nat) : Nat := poly.opFlops.getD i 0

def inBytes (i : Nat) : Nat := poly.opInBytes.getD i 0

def minHbm (i : Nat) : Nat := poly.opMinHbm.getD i 0

/-- An undecodable level counts as HBM. -/
def placement (s : PackedOpSched) : MemLevel := s.mem.getD .hbm

def computeTerm (s : PackedOpSched) (i : Nat) : Nat :=
  ceilDiv (poly.flops i) (max (peakFlops poly.hw (placement s) s.vecWidth) 1)

/-- An output placed off chip, or spilled from registers. -/
def hbmOut (s : PackedOpSched) (i : Nat) : Nat :=
  match placement s with
  | .hbm => poly.outBytes i
  | .sram => 0
  | .reg => if s.fused then 0 else poly.outBytes i

def sramOut (s : PackedOpSched) (i : Nat) : Nat :=
  if placement s = .sram then poly.outBytes i else 0

/-- Inputs are read off chip unless an earlier op fused into this one. -/
def hbmIn (sched : List PackedOpSched) (s : PackedOpSched) (i : Nat) : Nat :=
  if (sched.take i).any (·.fuseTarget = s.opId) then 0 else poly.inBytes i

def overOps (sched : List PackedOpSched) (f : PackedOpSched → Nat → Nat) : List Nat :=
  sched.zipIdx.map fun (s, i) => f s i

end SchedulePolytope

open SchedulePolytope in
def evaluate (sched : List PackedOpSched) (poly : SchedulePolytope) : CostPoint :=
  let computeCycles := Saturating.sum (overOps sched poly.computeTerm)
  let sramUsage := Saturating.sum (overOps sched poly.sramOut)
  let hbmBytes :=
    (overOps sched (poly.hbmIn sched)).foldl Saturating.add
      (Saturating.sum (overOps sched poly.hbmOut))
  -- SRAM traffic and SRAM footprint collect the same outputs.
  let memCycles := Saturating.add (ceilDiv hbmBytes poly.hw.hbmBwBytesPerCycle)
    (ceilDiv sramUsage poly.hw.sramBwBytesPerCycle)
  { cycles := max computeCycles memCycles, hbmBytes, sramUsage }

end Sxla
