import Sxla.Graph.Verifier
import Sxla.Supertensor.PrefixBounds

/-!
# Input traffic

What a schedule reads off chip should be its operands' bytes, but for those
whose producer is fused into their reader. The evaluator knows the operands
of an op only by their sum, and looks for a fused producer only ahead of the
op: one drops them all, none charges them all. The two totals agree exactly
where what is dropped too much and what is charged too much cancel out.
-/

namespace Sxla

namespace SchedulePolytope

open Wpa

variable {a : IrArena} {hw : HardwareModel} {sched : List PackedOpSched} {s : PackedOpSched}

-- ---------------------------------------------------------------------------
-- Operands
-- ---------------------------------------------------------------------------

def operandsOf (a : IrArena) (s : PackedOpSched) : List ValueId :=
  match a.node s.opId with
  | .ok n => n.valueInputs
  | .error _ => []

/-- The producer is scheduled, wherever, and fused into the reader. -/
def fusedInto (sched : List PackedOpSched) (reader : PackedOpSched) (v : ValueId) : Bool :=
  sched.any fun p => p.opId.index = v.node.index && p.fuseTarget = reader.opId

def unfusedBytes (a : IrArena) (sched : List PackedOpSched) (s : PackedOpSched) : Nat :=
  (((operandsOf a s).filter (!fusedInto sched s ·)).map (operandBytes a)).sum

def fusedBytes (a : IrArena) (sched : List PackedOpSched) (s : PackedOpSched) : Nat :=
  (((operandsOf a s).filter (fusedInto sched s ·)).map (operandBytes a)).sum

/-- The bytes of every operand that its producer is not fused into the reader
of, in the saturating arithmetic of the source. -/
def inputTraffic (a : IrArena) (sched : List PackedOpSched) : Nat :=
  Saturating.sum (sched.map (unfusedBytes a sched))

/-- What `evaluate` adds for inputs. -/
def inputPart (poly : SchedulePolytope) (sched : List PackedOpSched) : Nat :=
  Saturating.sum (overOps sched (poly.hbmIn sched))

/-- Off-chip bytes are those of the outputs and then those of the inputs. -/
theorem hbmBytes_eq (poly : SchedulePolytope) (sched : List PackedOpSched) :
    (evaluate sched poly).hbmBytes =
      Saturating.add (Saturating.sum (overOps sched poly.hbmOut)) (poly.inputPart sched) := by
  rw [inputPart, ← Saturating.sum_append, ← Saturating.foldl_foldl]
  rfl

-- ---------------------------------------------------------------------------
-- What the evaluator gets wrong
-- ---------------------------------------------------------------------------

/-- An op ahead is fused into this one. -/
def fedByFusion (sched : List PackedOpSched) (s : PackedOpSched) (i : Nat) : Bool :=
  (sched.take i).any (·.fuseTarget = s.opId)

/-- Unfused operands of the ops that are charged for theirs. -/
def keptBytes (a : IrArena) (sched : List PackedOpSched) : Nat :=
  (overOps sched fun s i => if fedByFusion sched s i then 0 else unfusedBytes a sched s).sum

/-- Unfused operands that go unpaid beside a fused one. -/
def droppedBytes (a : IrArena) (sched : List PackedOpSched) : Nat :=
  (overOps sched fun s i => if fedByFusion sched s i then unfusedBytes a sched s else 0).sum

/-- Fused operands that are paid for, no producer of them being ahead. -/
def overchargedBytes (a : IrArena) (sched : List PackedOpSched) : Nat :=
  (overOps sched fun s i => if fedByFusion sched s i then 0 else fusedBytes a sched s).sum

/-- The two faults cancel out, or either total saturates. -/
def Balanced (a : IrArena) (sched : List PackedOpSched) : Prop :=
  droppedBytes a sched = overchargedBytes a sched ∨
    Saturating.u64Max ≤ keptBytes a sched + droppedBytes a sched ∧
      Saturating.u64Max ≤ keptBytes a sched + overchargedBytes a sched

theorem sum_overOps_add (f g : PackedOpSched → Nat → Nat) :
    (overOps sched fun s i => f s i + g s i).sum = (overOps sched f).sum + (overOps sched g).sum := by
  unfold overOps
  induction sched.zipIdx with
  | nil => rfl
  | cons x l ih =>
    simp only [List.map_cons, List.sum_cons, ih]
    omega

theorem overOps_congr {f g : PackedOpSched → Nat → Nat}
    (h : ∀ i s, sched[i]? = some s → f s i = g s i) : overOps sched f = overOps sched g := by
  refine List.map_congr_left fun x hx => ?_
  exact h x.2 x.1 (List.mem_zipIdx_iff_getElem?.mp hx)

theorem overOps_const {f : PackedOpSched → Nat} :
    (overOps sched fun s _ => f s) = sched.map f := by
  apply List.ext_getElem?
  simp

/-- A sum of clipped terms clips as the sum of the terms. -/
theorem sum_clipped (l : List Nat) :
    Saturating.sum (l.map (min · Saturating.u64Max)) = Saturating.sum l := by
  simp only [Saturating.sum_eq]
  induction l with
  | nil => rfl
  | cons x l ih =>
    simp only [List.map_cons, List.sum_cons]
    omega

theorem unfused_add_fused :
    unfusedBytes a sched s + fusedBytes a sched s =
      ((operandsOf a s).map (operandBytes a)).sum := by
  unfold unfusedBytes fusedBytes
  induction operandsOf a s with
  | nil => rfl
  | cons v l ih =>
    cases h : fusedInto sched s v <;>
      simp only [h, List.filter_cons, Bool.not_true, Bool.not_false, Bool.false_eq_true, ↓reduceIte,
        List.map_cons, List.sum_cons] <;> omega

theorem inputTraffic_eq :
    inputTraffic a sched = Saturating.sum [keptBytes a sched + droppedBytes a sched] := by
  have hsplit : (sched.map (unfusedBytes a sched)).sum =
      keptBytes a sched + droppedBytes a sched := by
    rw [keptBytes, droppedBytes, ← sum_overOps_add]
    have hall : overOps sched (fun s i =>
        (if fedByFusion sched s i then 0 else unfusedBytes a sched s) +
          if fedByFusion sched s i then unfusedBytes a sched s else 0) =
        overOps sched fun s _ => unfusedBytes a sched s := by
      refine overOps_congr fun i s _ => ?_
      split <;> simp
    rw [hall, overOps_const]
  simp only [inputTraffic, Saturating.sum_eq, hsplit, List.sum_singleton]

-- ---------------------------------------------------------------------------
-- The extracted polytope
-- ---------------------------------------------------------------------------

/-- The table has the operand bytes of the scheduled op. -/
theorem inBytes_eq {i : Nat} (h : (extractPolytope a hw).WithinBounds sched)
    (hs : sched[i]? = some s) : (extractPolytope a hw).inBytes i =
      Saturating.sum ((operandsOf a s).map (operandBytes a)) := by
  have hlt : i < (extractPolytope a hw).opBounds.length := by
    rw [show (extractPolytope a hw).opBounds.length = sched.length from h.length.symm]
    exact (List.getElem?_eq_some_iff.mp hs).1
  have hb := List.getElem?_eq_getElem hlt
  have hop := (checkOp_ok_iff.mp (h.checkOp hb hs)).1
  generalize (extractPolytope a hw).opBounds[i] = b at hb hop
  simp only [extractPolytope, List.getElem?_map, Option.map_eq_some_iff] at hb
  obtain ⟨info, hinfo, rfl⟩ := hb
  have hmem := List.mem_of_getElem? hinfo
  simp only [collectTensorOps, List.mem_filterMap, Option.map_eq_some_iff, Prod.exists] at hmem
  obtain ⟨id, n, hn, t, _, rfl⟩ := hmem
  have hnode : a.node s.opId = .ok n := by
    rw [hop]
    exact IrArena.node_of_live hn
  simp only [inBytes, extractPolytope, List.getD_eq_getElem?_getD, List.getElem?_map, hinfo,
    Option.map_some, Option.getD_some, operandsOf, hnode]

/-- What the evaluator charges for inputs, with the two faults. -/
theorem inputPart_eq (h : (extractPolytope a hw).WithinBounds sched) :
    (extractPolytope a hw).inputPart sched =
      Saturating.sum [keptBytes a sched + overchargedBytes a sched] := by
  have hterm : overOps sched ((extractPolytope a hw).hbmIn sched) =
      (overOps sched fun s i => (if fedByFusion sched s i then 0 else unfusedBytes a sched s) +
        if fedByFusion sched s i then 0 else fusedBytes a sched s).map
          (min · Saturating.u64Max) := by
    rw [overOps, overOps, List.map_map]
    refine List.map_congr_left fun x hx => ?_
    have hs := List.mem_zipIdx_iff_getElem?.mp hx
    have hin : (extractPolytope a hw).hbmIn sched x.1 x.2 =
        if fedByFusion sched x.1 x.2 then 0 else (extractPolytope a hw).inBytes x.2 := rfl
    simp only [Function.comp_apply, hin]
    by_cases hfed : fedByFusion sched x.1 x.2 = true
    · simp only [hfed, ↓reduceIte, Nat.add_zero, Nat.zero_min]
    · simp only [hfed, ↓reduceIte, Bool.false_eq_true]
      rw [inBytes_eq h hs, Saturating.sum_eq, unfused_add_fused]
  rw [inputPart, hterm, sum_clipped, keptBytes, overchargedBytes]
  simp only [Saturating.sum_eq, sum_overOps_add, List.sum_singleton]

/-- The input part is the traffic of the operands that are not fused into
their reader, exactly when the two faults cancel out. -/
theorem inputPart_eq_iff (h : (extractPolytope a hw).WithinBounds sched) :
    (extractPolytope a hw).inputPart sched = inputTraffic a sched ↔ Balanced a sched := by
  rw [inputPart_eq h, inputTraffic_eq]
  simp only [Saturating.sum_eq, List.sum_singleton, Balanced]
  omega

instance (a : IrArena) (sched : List PackedOpSched) : Decidable (Balanced a sched) := by
  unfold Balanced
  infer_instance

theorem inputPart_eq_iff_negatedRow :
    (extractPolytope negatedRow .reference).WithinBounds negatedRowSched ∧
      Balanced negatedRow negatedRowSched ∧
      (extractPolytope negatedRow .reference).inputPart negatedRowSched =
        inputTraffic negatedRow negatedRowSched := by
  have hbounds : (extractPolytope negatedRow .reference).WithinBounds negatedRowSched :=
    ⟨rfl, rfl⟩
  have hbalanced : Balanced negatedRow negatedRowSched := by decide
  exact ⟨hbounds, hbalanced, (inputPart_eq_iff hbounds).mpr hbalanced⟩

/-- A parameter's negation, added to another parameter. -/
def negationAdded : IrArena := .built do
  let a := IrArena.withCapacity 4 1
  let ty := Ty.tensor ⟨.f64, rowOfEight, .rowMajor⟩
  let (x, a) ← a.insertNode a.rootRegion (.new (.param 0) a.rootRegion [] ty)
  let (y, a) ← a.insertNode a.rootRegion (.new (.param 1) a.rootRegion [] ty)
  let xval ← a.valueOf x 0
  let yval ← a.valueOf y 0
  let (neg, a) ← a.insertNode a.rootRegion (.new (.unary .neg) a.rootRegion [xval] ty)
  let nval ← a.valueOf neg 0
  let (_, a) ← a.insertNode a.rootRegion (.new (.binary .add) a.rootRegion [nval, yval] ty)
  return a

/-- The negation is fused into the addition. -/
def negationFused : List PackedOpSched :=
  [⟨.pack 2 0 .graph, ⟨8, 1, 1⟩, .pack 3 0 .graph, MemLevel.reg.code, 8⟩,
    ⟨.pack 3 0 .graph, ⟨8, 1, 1⟩, PackedOpSched.NO_FUSE, MemLevel.sram.code, 8⟩]

/-- The other parameter is read for nothing. -/
theorem inputPart_drops_operand : verify negationAdded = .ok () ∧
    (extractPolytope negationAdded .reference).WithinBounds negationFused ∧
    (extractPolytope negationAdded .reference).inputPart negationFused = 64 ∧
    inputTraffic negationAdded negationFused = 128 :=
  ⟨by decide, ⟨rfl, rfl⟩, rfl, rfl⟩

end SchedulePolytope

end Sxla
