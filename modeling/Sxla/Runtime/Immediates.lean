import Sxla.Levels.SlotSafety
import Sxla.Library.RowMajor
import Sxla.Runtime.Safety

/-!
# What becomes of shape immediates

Lowering drops the permutation of a transpose and the target of a broadcast.
The transpose kernel always exchanges the two axes of a matrix and refuses
other ranks; the broadcast kernel copies. `Realises` says what the ops ask
for, and `keepsImmediates_iff` under which operands the lowered program does
it.
-/

namespace Sxla

open Checked Projection Interp RowMajor

variable {libm : Libm} {a : IrArena} {id : NodeId} {n : Node} {order : List NodeId}
  {s : Projection} {sop : ScheduledOp} {i : Instr} {prog : LoopProgram} {tp : TargetProgram}
  {roots : List NodeId} {clusters : ClusterSet} {args table table' : List Value} {v w : Value}
  {op : Op} {dst x y : Nat}

/-- The entries in row-major order; a scalar is its own only entry. -/
def Value.entries : Value → List Value
  | .tensor data _ => data.map .f64
  | v => [v]

/-- The valid part of a permutation. -/
def axes (perm : List UInt8) (rank : UInt8) : List Nat := (perm.take rank.toNat).map (·.toNat)

def Op.hasShape : Op → Bool
  | .transpose .. | .broadcast _ => true
  | _ => false

/-- Operands that the immediates make sense for. -/
def WellShaped (op : Op) (v : Value) : Prop :=
  match op with
  | .transpose perm rank =>
    v.shape.dims.length = rank.toNat ∧ (axes perm rank).Perm (List.range rank.toNat)
  | .broadcast target => Compatible v.shape.dims target.dims
  | _ => True

/-- What the immediates ask for. -/
def Realises (op : Op) (v w : Value) : Prop :=
  match op with
  | .transpose perm rank =>
    Permuted (axes perm rank) v.shape.dims v.entries w.shape.dims w.entries
  | .broadcast target =>
    w.shape = target ∧ Repeats v.shape.dims v.entries w.shape.dims w.entries
  | _ => True

/-- Operands for which the kernels do it. -/
def Supported (op : Op) (v : Value) : Prop :=
  match op with
  | .transpose perm rank => axes perm rank = [0, 1] → Symmetric v.shape.dims v.entries
  | .broadcast target => v.shape = target
  | _ => True

/-- In the table `t` that a run ends with, each transpose and broadcast holds
what its immediates ask for. -/
def KeepsImmediates (a : IrArena) (s : Projection) (t : List Value) : Prop :=
  ∀ id n u x y v, (id, n) ∈ a.liveNodes → n.op.hasShape = true → n.valueInputs = [u] →
    s.lookup u.node = .ok x → s.lookup id = .ok y → t[x]? = some v → WellShaped n.op v →
      ∃ w, t[y]? = some w ∧ Realises n.op v w

/-- Each transpose and broadcast is reached with an operand it supports. -/
def SupportsImmediates (libm : Libm) (a : IrArena) (s : Projection) (tp : TargetProgram)
    (args : List Value) : Prop :=
  ∀ id n u x v table i rest, (id, n) ∈ a.liveNodes → n.op.hasShape = true → n.valueInputs = [u] →
    s.lookup u.node = .ok x → Reaches libm tp args table (i :: rest) → s.lookup id = .ok i.dst →
      table[x]? = some v → WellShaped n.op v → Supported n.op v

-- ---------------------------------------------------------------------------
-- The kernels
-- ---------------------------------------------------------------------------

theorem index_spec {data : List F64} :
    Ends (fun _ => True) (fun x => data[k]? = some x) (index data k) := by
  unfold index
  split
  · assumption
  · trivial

theorem write_spec {out : List F64} {x : F64} :
    Ends (fun _ => True) (fun out' => k < out.length ∧ out' = out.set k x) (write out k x) :=
  .ite (fun h => ⟨h, rfl⟩) fun _ => trivial

/-- The loops of `transpose` place entry `(i, j)` at `(j, i)`. -/
theorem transposeLoops_spec {data : List F64} {r c : Nat} (hl : data.length = r * c) :
    Ends (fun _ => True)
      (fun out => out.length = r * c ∧ ∀ i < r, ∀ j < c, out[j * r + i]? = data[i * c + j]?)
      (forRange r (List.replicate data.length (F64.zero false)) fun i out =>
        forRange c out fun j out => do
          write out (j * r + i) (← index data (i * c + j))) := by
  refine (Ends.range (I := fun i (out : List F64) => out.length = r * c ∧
    ∀ i' < i, ∀ j < c, out[j * r + i']? = data[i' * c + j]?) ?_ ?_)
  · rintro i hi out ⟨hout, hrows⟩
    refine (Ends.range (I := fun j (out : List F64) => out.length = r * c ∧
      (∀ i' < i, ∀ j < c, out[j * r + i']? = data[i' * c + j]?) ∧
      ∀ j' < j, out[j' * r + i]? = data[i * c + j']?) ?_ ?_).weaken ?_
    · rintro j hj out ⟨hout, hrows, hrow⟩
      refine index_spec.bind fun x hx => write_spec.weaken fun out' hout' => ?_
      obtain ⟨hlt, rfl⟩ := hout'
      refine ⟨by simpa using hout, fun i' hi' j' hj' => ?_, fun j' hj' => ?_⟩
      · have hne : j * r + i ≠ j' * r + i' := fun he =>
          hi'.ne (flat_inj hi (hi'.trans hi) he).2.symm
        rw [List.getElem?_set_ne hne, hrows i' hi' j' hj']
      · rcases Nat.lt_succ_iff_lt_or_eq.mp hj' with hj' | rfl
        · have hne : j * r + i ≠ j' * r + i := fun he => hj'.ne (flat_inj hi hi he).1.symm
          rw [List.getElem?_set_ne hne, hrow j' hj']
        · rw [List.getElem?_set_self hlt, hx]
    · exact ⟨hout, hrows, by simp⟩
    · rintro out ⟨hout, hrows, hrow⟩
      refine ⟨hout, fun i' hi' => ?_⟩
      rcases Nat.lt_succ_iff_lt_or_eq.mp hi' with hi' | rfl
      · exact hrows i' hi'
      · exact hrow
  · exact ⟨by simp [hl], by simp⟩

/-- The transpose kernel exchanges the axes of a matrix and accepts nothing
else. -/
theorem transpose_ok (hv : table[x]? = some v) (hw : v.Wf)
    (h : transpose table dst x = .ok table') :
    ∃ data shape r c out shape', v = .tensor data shape ∧ shape.dims = [r, c] ∧
      dst < table.length ∧ table' = table.set dst (.tensor out shape') ∧ shape'.dims = [c, r] ∧
      out.length = r * c ∧ ∀ i < r, ∀ j < c, out[j * r + i]? = data[i * c + j]? := by
  suffices hends : Ends (fun _ => True) (fun table' => ∃ data shape r c out shape',
      v = .tensor data shape ∧ shape.dims = [r, c] ∧ dst < table.length ∧
      table' = table.set dst (.tensor out shape') ∧ shape'.dims = [c, r] ∧
      out.length = r * c ∧ ∀ i < r, ∀ j < c, out[j * r + i]? = data[i * c + j]?)
      (transpose table dst x) by
    rwa [h] at hends
  refine (get_noPanic.mono (fun _ _ => trivial) fun _ h => h).bind fun u hu => ?_
  rw [hv, Option.some.injEq] at hu
  subst hu
  split
  swap
  · trivial
  rename_i data shape
  split
  swap
  · trivial
  rename_i r c hdims
  have hl : data.length = r * c := by
    rw [show data.length = _ from hw, hdims]
    simp
  refine (transposeLoops_spec hl).bind fun out hout => ?_
  refine ((shapeOf_noPanic [c, r]).mono (fun _ _ => trivial) fun _ h => h).bind fun shape' hs => ?_
  exact .ite (fun hlt => ⟨data, shape, r, c, out, shape', rfl, hdims, hlt, rfl, hs, hout⟩)
    fun _ => trivial

theorem broadcast_ok (hv : table[x]? = some v) (h : runInstr libm table (.broadcast dst x) = .ok table') :
    dst < table.length ∧ table' = table.set dst v := by
  have hget : Interp.get table x = .ok v := by simp [Interp.get, hv]
  obtain ⟨_, hv', h⟩ := bind_ok.mp h
  rw [hget, Except.ok.injEq] at hv'
  subst hv'
  unfold store at h
  split at h
  · exact ⟨‹_›, (Except.ok.inj h).symm⟩
  · cases h

theorem entries_length (hw : v.Wf) : v.entries.length = v.shape.dims.prod := by
  cases v with
  | tensor data shape => exact (List.length_map _).trans hw
  | _ => rfl

theorem perm_range_two {l : List Nat} (h : l.Perm (List.range 2)) : l = [0, 1] ∨ l = [1, 0] := by
  have hlen := h.length_eq
  obtain ⟨x, y, rfl⟩ := List.length_eq_two.mp hlen
  have hx : x ∈ List.range 2 := h.mem_iff.mp (by simp)
  have hy : y ∈ List.range 2 := h.mem_iff.mp (by simp)
  have hnd := h.nodup_iff.mpr List.nodup_range
  simp only [List.mem_range] at hx hy
  simp at hnd
  have : x = 0 ∧ y = 1 ∨ x = 1 ∧ y = 0 := by omega
  rcases this with ⟨rfl, rfl⟩ | ⟨rfl, rfl⟩ <;> simp

/-- One transpose or broadcast does what it should exactly on the operands it
supports. -/
theorem step_realises (hop : sop.op.hasShape = true) (hi : instrOf sop = some i)
    (hx : sop.inputs = [x]) (hv : table[x]? = some v) (hw : v.Wf) (hshape : WellShaped sop.op v)
    (h : runInstr libm table i = .ok table') :
    ∃ w, table'[sop.output]? = some w ∧ (Realises sop.op v w ↔ Supported sop.op v) := by
  unfold instrOf lowerOp at hi
  cases ho : sop.op with
  | transpose perm rank =>
    simp only [ho, hx, Option.some.injEq] at hi
    subst hi
    rw [ho] at hshape
    obtain ⟨hrank, hperm⟩ := hshape
    obtain ⟨data, shape, r, c, out, shape', rfl, hdims, hlt, rfl, hdims', hout, hentry⟩ :=
      transpose_ok hv hw h
    refine ⟨_, List.getElem?_set_self hlt, ?_⟩
    have hr : rank.toNat = 2 := by rw [← hrank, Value.shape, hdims]; rfl
    have hl : (out.map Value.f64).length = r * c := by simpa using hout
    have he : ∀ i < r, ∀ j < c,
        (out.map Value.f64)[j * r + i]? = (data.map Value.f64)[i * c + j]? := by
      intro i hi j hj
      rw [List.getElem?_map, List.getElem?_map, hentry i hi j hj]
    simp only [Realises, Supported, Value.shape, Value.entries, hdims, hdims']
    rw [hr] at hperm
    rcases perm_range_two hperm with hax | hax
    · rw [hax, permuted_id_of_swap hl he]
      simp
    · rw [hax]
      exact iff_of_true (permuted_swap hl he) (by simp)
  | broadcast target =>
    simp only [ho, hx, Option.some.injEq] at hi
    subst hi
    obtain ⟨hlt, rfl⟩ := broadcast_ok hv h
    refine ⟨v, List.getElem?_set_self hlt, ?_⟩
    exact and_iff_left (repeats_self (entries_length hw))
  | _ => simp [ho, Op.hasShape] at hop

-- ---------------------------------------------------------------------------
-- Compiled programs
-- ---------------------------------------------------------------------------

/-- What stands behind an instruction writes larger slots. -/
theorem Compiled.dst_lt (h : Compiled a roots order s tp) {l r : List Instr} {w : Instr}
    (hi : tp.instrs = l ++ i :: r) (hw : w ∈ r) : i.dst < w.dst := by
  have hsorted : (tp.instrs.map (·.dst)).Pairwise (· < ·) := by
    have hout : (s.ops.map (·.2.output)).Pairwise (· < ·) :=
      h.assigned.outputs ▸ List.pairwise_lt_range'
    rw [h.instrs, List.map_filterMap]
    rw [List.pairwise_map] at hout
    refine List.Pairwise.filterMap _ (fun e e' hlt d hd d' hd' => ?_) hout
    obtain ⟨j, hj, rfl⟩ := Option.map_eq_some_iff.mp hd
    obtain ⟨j', hj', rfl⟩ := Option.map_eq_some_iff.mp hd'
    rw [instrOf_dst hj, instrOf_dst hj']
    exact hlt
  rw [hi, List.map_append, List.map_cons, List.pairwise_append, List.pairwise_cons] at hsorted
  exact hsorted.2.1.1 _ (List.mem_map_of_mem hw)

/-- The slots around one step keep their values to the end of the run. -/
theorem Compiled.final_slots (h : Compiled a roots order s tp) {l r : List Instr}
    (hi : tp.instrs = l ++ i :: r) (hl : l.foldlM (runInstr libm) (initialTable tp args) = .ok table)
    (hrun : tp.instrs.foldlM (runInstr libm) (initialTable tp args) = .ok t) :
    ∃ table', runInstr libm table i = .ok table' ∧ t[i.dst]? = table'[i.dst]? ∧
      ∀ x < i.dst, t[x]? = table[x]? := by
  rw [hi, foldlM_append_cons, bind_ok] at hrun
  obtain ⟨table₀, hl', hrun⟩ := hrun
  rw [hl, Except.ok.injEq] at hl'
  subst hl'
  obtain ⟨table', hstep, hrest⟩ := bind_ok.mp hrun
  refine ⟨table', hstep, ?_, fun x hx => ?_⟩
  · exact foldlM_runInstr_frame hrest fun w hw => (h.dst_lt hi hw).ne
  · rw [foldlM_runInstr_frame hrest fun w hw => (hx.trans (h.dst_lt hi hw)).ne,
      (stores_of_runInstr hstep).getElem?_ne hx.ne]

/-- The operand slot of an op with one value input. -/
theorem Projection.EmittedFrom.single_input (hem : EmittedFrom a (slotOrder a order) id n sop)
    (h : Compiled a roots order s tp) (hu : n.valueInputs = [u]) (hx : s.lookup u.node = .ok x) :
    sop.inputs = [x] ∧ x < sop.output := by
  have hin := hem.inputs
  rw [hu] at hin
  obtain ⟨z, l, ⟨hz, hlt⟩, hnil, hl⟩ := List.forall₂_cons_left_iff.mp hin
  rw [List.forall₂_nil_left_iff] at hnil
  have hx' := (lookup_ok h.assigned.table).mpr hz
  rw [hx, Except.ok.injEq] at hx'
  rw [hl, hnil, hx']
  exact ⟨rfl, hlt⟩

theorem Op.hasInstr_of_hasShape (h : op.hasShape = true) : op.hasInstr = true := by
  cases op <;> first | rfl | cases h

/-- The transposes and broadcasts of a finished run hold what they should
exactly when each was reached with an operand it supports. -/
theorem keepsImmediates_iff {t : List Value} (hs : assignSlots a clusters = .ok s)
    (hp : projectWithFusion a roots clusters = .ok prog) (hl : lower prog = .ok tp)
    (hargs : ∀ v ∈ args, v.Sized)
    (hfits : ∀ table rest, Reaches libm tp args table rest → ∀ v ∈ table, v.Fits)
    (hrun : tp.instrs.foldlM (runInstr libm) (initialTable tp args) = .ok t) :
    KeepsImmediates a s t ↔ SupportsImmediates libm a s tp args := by
  obtain ⟨order, _, h⟩ := compiled_of_ok hs hp hl
  have hwf : ∀ v ∈ args, v.Wf := fun v hv =>
    (hargs v hv).wf (hfits _ _ .start v (List.mem_append_left _ hv))
  constructor
  · rintro hkeep id n u x v table i rest hn hop hu hx hreach hy hv hshape
    have htab := hreach.wf hwf hfits
    obtain ⟨l, hi, hpre⟩ := hreach
    obtain ⟨l', ⟨id', sop⟩, r', ho, hie, rfl⟩ := h.split hi
    obtain ⟨n', hem⟩ := h.assigned.emitted (id', sop) (by simp [ho])
    have hout := (lookup_ok h.assigned.table).mpr hem.output
    obtain ⟨rfl, rfl⟩ := h.assigned.slot_unique hem.live hn hout (instrOf_dst hie ▸ hy)
    obtain ⟨hin, hlt⟩ := hem.single_input h hu hx
    obtain ⟨table', hstep, hdst, hbefore⟩ := h.final_slots hi hpre hrun
    obtain ⟨w, hw, hiff⟩ := step_realises (hem.op_eq ▸ hop) hie hin hv (htab.of_get hv)
      (hem.op_eq ▸ hshape) hstep
    rw [instrOf_dst hie] at hdst hbefore
    obtain ⟨w', hw', hreal⟩ := hkeep id' n' u x sop.output v hn hop hu hx
      (instrOf_dst hie ▸ hy) (hbefore x hlt ▸ hv) hshape
    rw [hdst, hw, Option.some.injEq] at hw'
    rw [hem.op_eq] at hiff
    exact hiff.mp (hw' ▸ hreal)
  · intro hsup id n u x y v hn hop hu hx hy hv hshape
    obtain ⟨sop, he, hem, hout⟩ := h.assigned.op_of_live h.scheduled hn
      (Op.isParam_of_hasInstr (Op.hasInstr_of_hasShape hop))
    rw [hy, Except.ok.injEq] at hout
    subst hout
    obtain ⟨i, _, hie⟩ := h.mem_instrs he (hem.op_eq ▸ Op.hasInstr_of_hasShape hop)
    obtain ⟨l, r, ho⟩ := List.append_of_mem he
    have hi := h.split_of_ops ho hie
    have hpre := hrun
    rw [hi, foldlM_append_cons, bind_ok] at hpre
    obtain ⟨table, hpre, _⟩ := hpre
    obtain ⟨hin, hlt⟩ := hem.single_input h hu hx
    obtain ⟨table', hstep, hdst, hbefore⟩ := h.final_slots hi hpre hrun
    rw [instrOf_dst hie] at hdst hbefore
    rw [hbefore x hlt] at hv
    have hreach : Reaches libm tp args table (i :: _) := ⟨_, hi, hpre⟩
    have hsupp := hsup id n u x v table i _ hn hop hu hx hreach (instrOf_dst hie ▸ hy) hv hshape
    obtain ⟨w, hw, hiff⟩ := step_realises (hem.op_eq ▸ hop) hie hin hv
      ((hreach.wf hwf hfits).of_get hv) (hem.op_eq ▸ hshape) hstep
    rw [hem.op_eq] at hiff
    exact ⟨w, hdst.trans hw, hiff.mpr hsupp⟩

/-- The transpose of a parameter, with the permutation spelled out. -/
def transposeParam : IrArena := .built do
  let a := IrArena.withCapacity 16 4
  let ty : Ty := .tensor ⟨.f64, columnShape, .rowMajor⟩
  let (p, a) ← a.insertNode a.rootRegion (.new (.param 0) a.rootRegion [] ty)
  let pval ← a.valueOf p 0
  let (_, a) ← a.insertNode a.rootRegion
    (.new (.transpose [1, 0, 0, 0] 2) a.rootRegion [pval] ty)
  return a

theorem keepsImmediates_iff_transposeParam :
    ∃ s t, assignSlots transposeParam .empty = .ok s ∧
      transposeArg.instrs.foldlM (runInstr .absent) (initialTable transposeArg [columnOfTwo]) =
        .ok t ∧
      KeepsImmediates transposeParam s t := by
  obtain ⟨s, prog, hs, hp, hl⟩ : ∃ s prog, _ ∧ _ ∧ lower prog = .ok transposeArg :=
    compiled_as (a := transposeParam) (r := [.pack 1 0 .graph]) (c := .empty) (by decide)
  have hrun :
      transposeArg.instrs.foldlM (runInstr .absent) (initialTable transposeArg [columnOfTwo]) =
    .ok [columnOfTwo, .tensor [⟨1⟩, ⟨2⟩] ⟨[1, 2], by decide, by decide, by decide⟩] := rfl
  refine ⟨s, _, hs, hrun, (keepsImmediates_iff hs hp hl (by decide)
    (fun _ _ => transposeArg_fits) hrun).mpr ?_⟩
  have hop : ∀ e ∈ transposeParam.liveNodes, e.2.op.hasShape = true →
      e.2.op = .transpose [1, 0, 0, 0] 2 := by decide
  intro id n u x v table i rest hn hshape _ _ _ _ _ _
  rw [hop _ hn hshape]
  exact fun h => absurd h (by decide)

/-- A constant broadcast to two places. -/
def broadcastConst : IrArena := .built do
  let a := IrArena.withCapacity 16 4
  let two : Shape := ⟨[2], by decide, by decide, by decide⟩
  let (c, a) ← a.insertNode a.rootRegion
    (.new (.constF64 ⟨0x3ff8000000000000⟩) a.rootRegion [] (.scalar .f64))
  let cval ← a.valueOf c 0
  let (_, a) ← a.insertNode a.rootRegion
    (.new (.broadcast two) a.rootRegion [cval] (.tensor ⟨.f64, two, .rowMajor⟩))
  return a

theorem broadcastConst_not_keepsImmediates :
    verify broadcastConst = .ok () ∧ ∃ s prog tp t, assignSlots broadcastConst .empty = .ok s ∧
      projectWithFusion broadcastConst [.pack 1 0 .tensor] .empty = .ok prog ∧
      lower prog = .ok tp ∧ tp.instrs.foldlM (runInstr .absent) (initialTable tp []) = .ok t ∧
      ¬ KeepsImmediates broadcastConst s t := by
  obtain ⟨s, prog, hs, hp, hl⟩ : ∃ s prog, _ ∧ _ ∧
      lower prog = .ok ⟨[.constF64 0 ⟨0x3ff8000000000000⟩, .broadcast 1 0], [1], 2⟩ :=
    compiled_as (a := broadcastConst) (r := [.pack 1 0 .tensor]) (c := .empty) (by decide)
  refine ⟨by decide, s, prog, _, _, hs, hp, hl, rfl, fun hkeep => ?_⟩
  have hnode : ∃ e ∈ broadcastConst.liveNodes,
      e.2.op = .broadcast ⟨[2], by decide, by decide, by decide⟩ ∧
      e.1 = .pack 1 0 .tensor ∧ e.2.valueInputs = [.fromNode (.pack 0 0 .graph) 0] := by decide
  obtain ⟨⟨id, n⟩, hn, hop, rfl, hu⟩ := hnode
  have hx : (assignSlots broadcastConst .empty).bind (·.lookup (.pack 0 0 .graph)) = .ok 0 := by
    decide
  have hy : (assignSlots broadcastConst .empty).bind (·.lookup (.pack 1 0 .tensor)) = .ok 1 := by
    decide
  rw [hs] at hx hy
  obtain ⟨w, hw, hreal⟩ := hkeep _ n _ 0 1 (.f64 ⟨0x3ff8000000000000⟩) hn (by rw [hop]; rfl) hu hx hy
    rfl (by rw [hop]; exact ⟨by decide, .nil⟩)
  rw [hop] at hreal
  obtain rfl : Value.f64 ⟨0x3ff8000000000000⟩ = w := Option.some.inj hw
  exact absurd (congrArg Shape.dims hreal.1) (by decide)

end Sxla
