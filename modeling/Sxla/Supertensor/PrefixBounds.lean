import Sxla.Library.Checked
import Sxla.Supertensor.Candidates

/-!
# The bounds of a prefix

Pruning compares an anchor with three numbers it computes from a prefix. None
of them exceeds what a complete schedule within its bounds costs, whatever
the prefix's length. The sum of the remaining minima is a plain one: where it
overflows, the source panics and has no bound for the traffic.
-/

namespace Sxla

namespace SchedulePolytope

variable {a : IrArena} {poly : SchedulePolytope} {sched : List PackedOpSched}
  {s : PackedOpSched} {b : OpBounds}

/-- Every op passes the checks of its own; neither rows nor divisors nor the
SRAM pressure are looked at. -/
structure WithinBounds (poly : SchedulePolytope) (sched : List PackedOpSched) : Prop where
  length : sched.length = poly.opCount
  ops : ((poly.opBounds.zip sched).zipIdx.forM fun ((b, s), i) => checkOp b i s) = .ok ()

/-- What the ops behind the prefix write off chip at least. -/
def remainingMinima (poly : SchedulePolytope) (depth : Nat) : Option Nat :=
  Saturating.checkedSum ((poly.opMinHbm.take poly.opCount).drop depth)

/-- The traffic of the prefix with the remaining minima. -/
def hbmBound (poly : SchedulePolytope) (ops : List PackedOpSched) (depth : Nat) : Option Nat :=
  (poly.remainingMinima depth).map
    (Saturating.add (Saturating.sum (overOps (ops.take depth) poly.hbmLowerOut)))

/-- The footprint of the prefix. -/
def sramBound (poly : SchedulePolytope) (ops : List PackedOpSched) (depth : Nat) : Nat :=
  Saturating.sum (overOps (ops.take depth) poly.sramLowerOut)

theorem checkOp_ok_iff {i : Nat} : checkOp b i s = .ok () ↔
    s.opId = b.opId ∧ b.tileInRange s.tile = true ∧ s.mem.any b.memInRange = true ∧
      validWidth b.vecMask s.vecWidth = true ∧ b.fuseAllowed s = true := by
  unfold checkOp
  by_cases hop : s.opId = b.opId
  · by_cases htile : b.tileInRange s.tile = true
    · by_cases hmem : s.mem.any b.memInRange = true
      · by_cases hwidth : validWidth b.vecMask s.vecWidth = true
        · by_cases hfuse : b.fuseAllowed s = true
          · simp [hop, htile, hmem, hwidth, hfuse, pure, Except.pure]
          · simp [hop, htile, hmem, hwidth, hfuse, throw, throwThe, MonadExceptOf.throw]
        · simp [hop, htile, hmem, hwidth, throw, throwThe, MonadExceptOf.throw, bind, Except.bind]
      · simp [hop, htile, hmem, throw, throwThe, MonadExceptOf.throw, bind, Except.bind]
    · simp [hop, htile, throw, throwThe, MonadExceptOf.throw, bind, Except.bind]
  · simp [hop, throw, throwThe, MonadExceptOf.throw, bind, Except.bind]

theorem WithinBounds.checkOp {i : Nat} (h : poly.WithinBounds sched)
    (hb : poly.opBounds[i]? = some b) (hs : sched[i]? = some s) :
    SchedulePolytope.checkOp b i s = .ok () := by
  refine Checked.forM_ok.mp h.ops ((b, s), i) ?_
  rw [List.mem_zipIdx_iff_getElem?, List.getElem?_zip_eq_some]
  exact ⟨hb, hs⟩

theorem WithinBounds.placed (h : poly.WithinBounds sched) : Placed poly sched where
  length := h.length
  inRange _ _ _ hs hb := (checkOp_ok_iff.mp (h.checkOp hb hs)).2.2.1

theorem remainingMinima_eq {d m : Nat} (h : poly.remainingMinima d = some m) :
    m = ((poly.opMinHbm.take poly.opCount).drop d).sum := by
  rw [remainingMinima, Saturating.checkedSum_eq] at h
  split at h
  · exact (Option.some.inj h).symm
  · cases h

theorem hbmBound_le {d bound : Nat} (hx : poly.Extracted a) (hc : Placed poly sched)
    (hd : d ≤ poly.opCount) (h : poly.hbmBound sched d = some bound) :
    bound ≤ (evaluate sched poly).hbmBytes := by
  obtain ⟨m, hm, rfl⟩ := Option.map_eq_some_iff.mp h
  apply le_trans _ hbmOut_le_evaluate
  have hsum := hbmLower_le hx hc hd
  rw [List.sum_append, ← remainingMinima_eq hm] at hsum
  simp only [Saturating.sum_eq, Saturating.add]
  omega

/-- None of the three bounds exceeds the cost of the complete schedule. -/
theorem prefix_bounds_sound (a : IrArena) {sched : List PackedOpSched} {d : Nat}
    (hsched : (extractPolytope a .reference).WithinBounds sched) (_ : 1 ≤ d)
    (hd : d ≤ (extractPolytope a .reference).opCount) :
    let poly := extractPolytope a .reference
    poly.constCyclesLb ≤ (evaluate sched poly).cycles ∧
      (∀ bound, poly.hbmBound sched d = some bound → bound ≤ (evaluate sched poly).hbmBytes) ∧
      poly.sramBound sched d ≤ (evaluate sched poly).sramUsage := by
  intro poly
  have hx := extractPolytope_extracted a
  refine ⟨constCyclesLb_le hx hsched.placed, ?_, sramLower_le⟩
  intro bound hbound
  exact hbmBound_le hx hsched.placed hd hbound

def rowOfEight : Shape := ⟨[8], by decide, by simp, by simp⟩

/-- A parameter and its negation. -/
def negatedRow : IrArena := .built do
  let a := IrArena.withCapacity 4 1
  let ty := Ty.tensor ⟨.f64, rowOfEight, .rowMajor⟩
  let (x, a) ← a.insertNode a.rootRegion (.new (.param 0) a.rootRegion [] ty)
  let xval ← a.valueOf x 0
  let (_, a) ← a.insertNode a.rootRegion (.new (.unary .neg) a.rootRegion [xval] ty)
  return a

/-- The negation in SRAM. -/
def negatedRowSched : List PackedOpSched :=
  [⟨.pack 1 0 .graph, ⟨8, 1, 1⟩, PackedOpSched.NO_FUSE, MemLevel.sram.code, 8⟩]

theorem prefix_bounds_sound_negatedRow :
    let poly := extractPolytope negatedRow .reference
    poly.WithinBounds negatedRowSched ∧
      poly.constCyclesLb ≤ (evaluate negatedRowSched poly).cycles ∧
      (∀ bound, poly.hbmBound negatedRowSched 1 = some bound →
        bound ≤ (evaluate negatedRowSched poly).hbmBytes) ∧
      poly.sramBound negatedRowSched 1 ≤ (evaluate negatedRowSched poly).sramUsage := by
  have hbounds : (extractPolytope negatedRow .reference).WithinBounds negatedRowSched :=
    ⟨by rfl, by rfl⟩
  exact ⟨hbounds, prefix_bounds_sound negatedRow hbounds (by decide) (by rfl)⟩

end SchedulePolytope

end Sxla
