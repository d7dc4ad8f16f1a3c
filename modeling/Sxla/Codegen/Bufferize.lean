import Mathlib
import Sxla.Levels.Level4
import Sxla.Levels.Registers
import Sxla.Library.Saturating

/-!
# Bufferization

The plan of the projection puts a tensor in registers by clusters and regions;
this pass counts its readers, and keeps it there as well if there is one at
most and it is small. It asks for no cluster, and what it forces to memory for
its many readers stays in registers where the projection has put it. So the two
passes agree just on the tensors that `Consistent` describes.
-/

namespace Sxla

open Checked Projection

/-- An entry of the plan: `materialize` where memory is forced. -/
structure BufferEntry where
  slot : Nat
  bytes : Nat
  space : AddressSpace
  materialize : Bool
deriving DecidableEq, Repr

structure BufferPlan where
  entries : List BufferEntry
deriving DecidableEq, Repr

namespace Bufferize

def countUse (uses : List Nat) (slot : Nat) : List Nat :=
  uses.modify slot fun n => min (n + 1) Saturating.u32Max

def uses (prog : LoopProgram) : List Nat :=
  prog.ops.foldl (fun uses op => op.inputs.foldl countUse uses)
    (List.replicate (max prog.valueCount 1) 0)

def entry (prog : LoopProgram) (b : Buffer) : BufferEntry :=
  let multi := decide ((uses prog).getD b.slot 0 > 1)
  let isResult := prog.results.contains b.slot
  let keepRegister := !multi && !isResult && decide (b.bytes ≤ 256)
  ⟨b.slot, b.bytes, if keepRegister then .register else b.space, multi || isResult⟩

end Bufferize

def bufferize (prog : LoopProgram) : BufferPlan := ⟨prog.buffers.map (Bufferize.entry prog)⟩

structure LoweredProgram where
  target : TargetProgram
  buffers : BufferPlan
deriving Repr

def lowerTarget (prog : LoopProgram) : Except TargetError LoweredProgram := do
  let buffers := bufferize prog
  let target ← lower prog
  return ⟨target, buffers⟩

-- ---------------------------------------------------------------------------
-- What the plan should be
-- ---------------------------------------------------------------------------

/-- A register entry is no result and is read where it is written, and memory
is not forced for it. -/
structure BufferEntry.Fused (prog : LoopProgram) (e : BufferEntry) : Prop where
  no_result : e.space = .register → e.slot ∉ prog.results
  inside : e.space = .register → ∀ w ∈ prog.ops, w.output = e.slot →
    ∀ r ∈ prog.ops, e.slot ∈ r.inputs → r.cluster = w.cluster
  not_forced : ¬ (e.space = .register ∧ e.materialize = true)

/-- The tensor that a node makes is treated alike by the two passes. What could
stay inside its cluster, and is not a root by its handle, has one reader and is
no root's slot; and a small one with one reader, if it is no root's slot, is
read in its own cluster. -/
structure Consistent (a : IrArena) (clusters : ClusterSet) (roots : List NodeId) (id : NodeId)
    (t : TensorType) : Prop where
  enclosed : clusters.isEmpty = false → (∃ pc, Enclosed a clusters id pc) → id ∉ roots →
    (consumersOf a id.index).length = 1 ∧ ∀ r ∈ roots, r.index ≠ id.index
  small : clusters.isEmpty = false → bufferBytes t ≤ 256 → (∀ r ∈ roots, r.index ≠ id.index) →
    ∀ u, consumersOf a id.index = [u] → clusters.clusterOf u = clusters.clusterOf id

namespace Bufferize

variable {a : IrArena} {clusters : ClusterSet} {roots order : List NodeId} {id : NodeId} {n : Node}
  {s : Projection} {prog : LoopProgram} {x slot : Nat} {counts : List Nat} {b : Buffer}

-- ---------------------------------------------------------------------------
-- Counting
-- ---------------------------------------------------------------------------

theorem getD_countUse (hx : x < counts.length) : (countUse counts slot).getD x 0 =
    if slot = x then min (counts.getD x 0 + 1) Saturating.u32Max else counts.getD x 0 := by
  rw [countUse, List.getD_eq_getElem?_getD, List.getD_eq_getElem?_getD, List.getElem?_modify,
    List.getElem?_eq_getElem hx]
  split <;> rfl

theorem getD_foldl_countUse (l : List Nat) (hx : x < counts.length)
    (hle : counts.getD x 0 ≤ Saturating.u32Max) :
    (l.foldl countUse counts).getD x 0 = min (counts.getD x 0 + l.count x) Saturating.u32Max := by
  induction l generalizing counts with
  | nil => exact (Nat.min_eq_left hle).symm
  | cons y l ih =>
    have hlen : x < (countUse counts y).length := by
      rw [countUse, List.length_modify]
      exact hx
    have hstep := @getD_countUse x y counts hx
    rw [List.foldl_cons, List.count_cons]
    by_cases hy : y = x
    · rw [if_pos hy] at hstep
      rw [ih hlen (by rw [hstep]; exact Nat.min_le_right ..), hstep, if_pos (beq_iff_eq.mpr hy)]
      omega
    · rw [if_neg hy] at hstep
      rw [ih hlen (by rw [hstep]; exact hle), hstep, if_neg (mt beq_iff_eq.mp hy)]
      rfl

/-- The reads of a slot, as far as a `u32` counts. -/
theorem uses_getD (hx : x < prog.valueCount) : (uses prog).getD x 0 =
    min ((prog.ops.flatMap (·.inputs)).count x) Saturating.u32Max := by
  have hlen : x < (List.replicate (max prog.valueCount 1) 0).length := by
    rw [List.length_replicate]
    exact Nat.lt_of_lt_of_le hx (Nat.le_max_left ..)
  have hzero : (List.replicate (max prog.valueCount 1) 0).getD x 0 = 0 := by
    rw [List.getD_eq_getElem?_getD, List.getElem?_replicate]
    split <;> rfl
  have hcount := getD_foldl_countUse (prog.ops.flatMap (·.inputs)) hlen
    (hzero.symm ▸ Nat.zero_le _)
  rw [hzero, Nat.zero_add, List.foldl_flatMap] at hcount
  exact hcount

theorem multi_iff (hx : x < prog.valueCount) : (uses prog).getD x 0 > 1 ↔
    1 < (prog.ops.flatMap (·.inputs)).count x := by
  rw [uses_getD hx, Saturating.u32Max]
  omega

-- ---------------------------------------------------------------------------
-- Reads of a slot and uses of a node
-- ---------------------------------------------------------------------------

/-- How often a node uses what the slot defines. -/
def usesIn (a : IrArena) (slot : Nat) (id : NodeId) : Nat :=
  match a.node id with
  | .ok n => (n.valueInputs.filter (·.node.index == slot)).length
  | .error _ => 0

theorem usesIn_live (h : (id, n) ∈ a.liveNodes) :
    usesIn a slot id = (n.valueInputs.filter (·.node.index == slot)).length := by
  rw [usesIn, IrArena.node_of_live h]

theorem length_consumersOf (a : IrArena) (slot : Nat) :
    (consumersOf a slot).length = (a.liveIds.map (usesIn a slot)).sum := by
  rw [consumersOf, List.length_flatMap, IrArena.liveIds, List.map_map]
  refine congrArg List.sum (List.map_congr_left fun e he => ?_)
  obtain ⟨id, n⟩ := e
  exact (List.length_map _).trans (usesIn_live he).symm

/-- Each operand is read in its slot. -/
theorem count_inputs (h : Assigned a order s) (hx : s.lookup id = .ok x) {slots : List Nat}
    {l : List ValueId} {inputs : List Nat} (hslots : slots = slotOrder a order)
    (hinputs : List.Forall₂ (fun v y => slots[y]? = some v.node.index) l inputs) :
    inputs.count x = (l.filter (·.node.index == id.index)).length := by
  subst hslots
  have hslot := (lookup_ok h.table).mp hx
  induction hinputs with
  | nil => rfl
  | @cons v y l inputs hvy _ ih =>
    rw [List.count_cons, ih, List.filter_cons]
    by_cases hy : y = x
    · subst hy
      have hsame : v.node.index = id.index := Option.some.inj (hvy.symm.trans hslot)
      rw [if_pos (beq_iff_eq.mpr rfl), if_pos (beq_iff_eq.mpr hsame), List.length_cons]
    · have hother : v.node.index ≠ id.index := by
        intro hsame
        have hlookup := (lookup_ok h.table).mpr (hsame ▸ hvy : (slotOrder a order)[y]? = some id.index)
        exact hy (Except.ok.inj (hlookup.symm.trans hx))
      rw [if_neg (mt beq_iff_eq.mp hy), if_neg (mt beq_iff_eq.mp hother)]
      rfl

theorem ops_nodup (h : Assigned a order s) : (s.ops.map (·.1)).Nodup := by
  have houtputs : (s.ops.map (·.2.output)).Nodup := h.outputs ▸ List.nodup_range'
  refine List.Nodup.of_map (fun i => (s.lookup i).toOption.getD 0) ?_
  rw [List.map_map]
  have hsame : s.ops.map ((fun i => (s.lookup i).toOption.getD 0) ∘ (·.1)) =
      s.ops.map (·.2.output) := by
    refine List.map_congr_left fun e he => ?_
    obtain ⟨n, hem⟩ := h.emitted e he
    have hlookup := (lookup_ok h.table).mpr hem.output
    change (s.lookup e.1).toOption.getD 0 = _
    rw [hlookup]
    rfl
  rw [hsame]
  exact houtputs

/-- The ops come from the live nodes that are no parameters. -/
theorem ops_perm (h : Assigned a order s) (hs : Scheduled a order) :
    (s.ops.map (·.1)).Perm (a.liveIds.filter fun i => !isParam a i) := by
  refine (List.perm_ext_iff_of_nodup (ops_nodup h) (a.liveIds_nodup.filter _)).mpr fun i => ?_
  rw [List.mem_map, List.mem_filter]
  constructor
  · rintro ⟨e, he, rfl⟩
    obtain ⟨n, hem⟩ := h.emitted e he
    refine ⟨List.mem_map.mpr ⟨_, hem.live, rfl⟩, ?_⟩
    rw [isParam_live hem.live, hem.not_param]
    rfl
  · rintro ⟨hi, hp⟩
    obtain ⟨⟨id, n⟩, hn, rfl⟩ := List.mem_map.mp hi
    rw [isParam_live hn] at hp
    obtain ⟨sop, he, -⟩ := h.op_of_live hs hn (by simpa using hp)
    exact ⟨_, he, rfl⟩

theorem sum_map_filter {α : Type} {l : List α} {f : α → Nat} {p : α → Bool}
    (h : ∀ i ∈ l, p i = false → f i = 0) : ((l.filter p).map f).sum = (l.map f).sum := by
  induction l with
  | nil => rfl
  | cons i l ih =>
    rw [List.forall_mem_cons] at h
    rw [List.filter_cons, List.map_cons, List.sum_cons, ← ih h.2]
    split
    · rw [List.map_cons, List.sum_cons]
    · next hp => rw [h.1 (Bool.not_eq_true _ ▸ hp), Nat.zero_add]

/-- In a verified arena a slot is read as often as its node is used. -/
theorem count_reads (h : Assigned a order s) (hs : Scheduled a order) (hv : verify a = .ok ())
    (hx : s.lookup id = .ok x) :
    ((s.ops.map (·.2)).flatMap (·.inputs)).count x = (consumersOf a id.index).length := by
  have hparams : ∀ i ∈ a.liveIds, (!isParam a i) = false → usesIn a id.index i = 0 := by
    intro i hi hp
    by_contra huses
    obtain ⟨⟨i, n⟩, hn, rfl⟩ := List.mem_map.mp hi
    rw [usesIn_live hn] at huses
    obtain ⟨v, hmem⟩ := List.exists_mem_of_length_pos (Nat.pos_of_ne_zero huses)
    obtain ⟨hv', hslot⟩ := List.mem_filter.mp hmem
    have hconsumer := mem_consumersOf.mpr ⟨n, hn, v, hv', beq_iff_eq.mp hslot⟩
    obtain ⟨e, he, rfl⟩ := h.op_of_consumer hs hv hconsumer
    obtain ⟨m, hem⟩ := h.emitted e he
    rw [isParam_live hem.live, hem.not_param] at hp
    cases hp
  rw [length_consumersOf, ← sum_map_filter hparams, ← ((ops_perm h hs).map _).sum_eq,
    List.count_flatMap, List.map_map, List.map_map]
  refine congrArg List.sum (List.map_congr_left fun e he => ?_)
  obtain ⟨n, hem⟩ := h.emitted e he
  have hinputs := hem.inputs.imp fun v y hvy => hvy.1
  change e.2.inputs.count x = usesIn a id.index e.1
  rw [usesIn_live hem.live]
  exact count_inputs h hx rfl hinputs

-- ---------------------------------------------------------------------------
-- Entries
-- ---------------------------------------------------------------------------

theorem entry_register : (entry prog b).space = .register ↔
    ((uses prog).getD b.slot 0 ≤ 1 ∧ b.slot ∉ prog.results ∧ b.bytes ≤ 256) ∨
      b.space = .register := by
  have hkeep : (!decide ((uses prog).getD b.slot 0 > 1) && !prog.results.contains b.slot &&
      decide (b.bytes ≤ 256)) = true ↔
      (uses prog).getD b.slot 0 ≤ 1 ∧ b.slot ∉ prog.results ∧ b.bytes ≤ 256 := by
    simp [and_assoc]
  rw [← hkeep]
  simp only [entry]
  split
  · next h => exact ⟨fun _ => .inl h, fun _ => rfl⟩
  · next h => exact ⟨.inr, fun hor => hor.resolve_left h⟩

theorem entry_materialize : (entry prog b).materialize = true ↔
    1 < (uses prog).getD b.slot 0 ∨ b.slot ∈ prog.results := by
  simp [entry]

/-- An op that makes a tensor, and the buffer planned for it. -/
structure Planned (a : IrArena) (clusters : ClusterSet) (roots order : List NodeId)
    (s : Projection) (id : NodeId) (t : TensorType) (b : Buffer) : Prop where
  made : ∃ n sop, (id, sop) ∈ s.ops ∧ EmittedFrom a (slotOrder a order) id n sop ∧
    n.ty = .tensor t ∧ sop.output = b.slot
  lookup : s.lookup id = .ok b.slot
  bytes : b.bytes = bufferBytes t
  register : b.space = .register ↔
    clusters.isEmpty = false ∧ (∃ pc, Enclosed a clusters id pc) ∧ id ∉ roots

theorem planned_of_plan {sop : ScheduledOp} (h : Assigned a order s) (he : (id, sop) ∈ s.ops)
    (hb : planBuffer a roots clusters (id, sop) = some b) :
    ∃ t, Planned a clusters roots order s id t b := by
  obtain ⟨n, hem⟩ := h.emitted _ he
  have hty := hem.ty_eq
  cases hsop : sop.ty with
  | tensor t =>
    simp only [planBuffer, hsop, Option.some.injEq] at hb
    subst hb
    refine ⟨t, ⟨n, sop, he, hem, hty.symm.trans hsop, rfl⟩, (lookup_ok h.table).mpr hem.output, rfl,
      ?_⟩
    rw [← bufferSpace_register hem.live]
    cases clusters.isEmpty <;> simp
  | none => simp [planBuffer, hsop] at hb
  | scalar e => simp [planBuffer, hsop] at hb
  | token => simp [planBuffer, hsop] at hb
  | memRef ty space => simp [planBuffer, hsop] at hb

/-- A projection of a verified arena, and the program that it gives. -/
structure Projected (a : IrArena) (clusters : ClusterSet) (roots order : List NodeId)
    (s : Projection) (prog : LoopProgram) : Prop where
  verified : verify a = .ok ()
  scheduled : Scheduled a order
  assigned : Assigned a order s
  tags : ∀ e ∈ s.ops, e.2.cluster = if clusters.isEmpty then none else clusters.clusterOf e.1
  ops : prog.ops = s.ops.map (·.2)
  results : List.Forall₂ (fun r x => s.lookup r = .ok x) roots prog.results
  buffers : prog.buffers = s.ops.filterMap (planBuffer a roots clusters)

theorem exists_projection (hv : verify a = .ok ())
    (hp : projectWithFusion a roots clusters = .ok prog) :
    ∃ order s, Projected a clusters roots order s prog := by
  obtain ⟨s, hs, _⟩ := exists_projected (by rw [hp]; rfl)
  obtain ⟨order, hord, h⟩ := assignSlots_ok hs
  obtain ⟨_, hops, hresults⟩ := projectWithFusion_ok hs hp
  exact ⟨order, s, hv, projectionOrder_scheduled hord, h, fun e => assignSlots_tag hs, hops,
    hresults, projectWithFusion_buffers hs hp⟩

variable {t : TensorType}

namespace Projected

/-- A slot is a result when its node's index is a root's. -/
theorem result_iff (h : Projected a clusters roots order s prog) (hx : s.lookup id = .ok x) :
    x ∉ prog.results ↔ ∀ r ∈ roots, r.index ≠ id.index := by
  have hslot := (lookup_ok h.assigned.table).mp hx
  constructor
  · rintro hno r hr hindex
    obtain ⟨y, hy, hry⟩ := Schedule.mem_of_forall₂ h.results.flip hr
    rw [lookup_ok h.assigned.table, hindex, ← lookup_ok h.assigned.table, hx] at hry
    cases hry
    exact hno hy
  · intro hno hres
    obtain ⟨r, hr, hrx⟩ := Schedule.mem_of_forall₂ h.results hres
    rw [lookup_ok h.assigned.table] at hrx
    exact hno r hr (Option.some.inj (hrx.symm.trans hslot))

theorem multi (h : Projected a clusters roots order s prog)
    (hb : Planned a clusters roots order s id t b) :
    1 < (uses prog).getD b.slot 0 ↔ 1 < (consumersOf a id.index).length := by
  obtain ⟨n, sop, he, _, _, hout⟩ := hb.made
  have hlt : b.slot < prog.valueCount := by
    rw [LoopProgram.valueCount, h.ops, ← hout]
    exact (foldl_max_output _ _).2 _ (List.mem_map.mpr ⟨_, he, rfl⟩)
  rw [← count_reads h.assigned h.scheduled h.verified hb.lookup, ← h.ops]
  exact multi_iff hlt

/-- What reads the slot carries its writer's tag when the users of the node are
in the node's cluster. -/
theorem inside_iff (h : Projected a clusters roots order s prog)
    (hb : Planned a clusters roots order s id t b) :
    (∀ w ∈ prog.ops, w.output = b.slot → ∀ r ∈ prog.ops, b.slot ∈ r.inputs →
        r.cluster = w.cluster) ↔
      (clusters.isEmpty = false →
        ∀ u ∈ consumersOf a id.index, clusters.clusterOf u = clusters.clusterOf id) := by
  obtain ⟨n, sop, he, hem, _, hout⟩ := hb.made
  rw [h.ops]
  constructor
  · intro hin hne u hu
    obtain ⟨e, he', rfl⟩ := h.assigned.op_of_consumer h.scheduled h.verified hu
    have hsame := hin sop (List.mem_map.mpr ⟨_, he, rfl⟩) hout e.2 (List.mem_map.mpr ⟨_, he', rfl⟩)
      ((h.assigned.reads_iff he' hb.lookup).mpr hu)
    rw [h.tags e he', h.tags (id, sop) he, hne] at hsame
    exact hsame
  · intro hall _ hwriter hwx _ hreader hread
    obtain ⟨w, hw, rfl⟩ := List.mem_map.mp hwriter
    obtain ⟨r, hr, rfl⟩ := List.mem_map.mp hreader
    obtain ⟨m, hwm⟩ := h.assigned.emitted w hw
    have hwx' : s.lookup w.1 = .ok b.slot := hwx ▸ (lookup_ok h.assigned.table).mpr hwm.output
    obtain ⟨rfl, _⟩ := h.assigned.slot_unique hem.live hwm.live hb.lookup hwx'
    rw [h.tags r hr, h.tags w hw]
    cases hne : clusters.isEmpty with
    | true => rfl
    | false => exact hall hne r.1 ((h.assigned.reads_iff hr hb.lookup).mp hread)

theorem consistent_of_fused (h : Projected a clusters roots order s prog)
    (hb : Planned a clusters roots order s id t b) (hf : (entry prog b).Fused prog) :
    Consistent a clusters roots id t where
  enclosed := by
    rintro hne ⟨pc, henc⟩ hroot
    have hreg : (entry prog b).space = .register :=
      entry_register.mpr (.inr (hb.register.mpr ⟨hne, ⟨pc, henc⟩, hroot⟩))
    have hfree := mt entry_materialize.mpr fun hm => hf.not_forced ⟨hreg, hm⟩
    rw [not_or, h.multi hb] at hfree
    have hpos := List.length_pos_of_ne_nil henc.used
    exact ⟨by omega, (h.result_iff hb.lookup).mp hfree.2⟩
  small := by
    intro hne hsmall hroot u hu
    have hle : ¬ 1 < (uses prog).getD b.slot 0 := by
      rw [h.multi hb, hu]
      exact Nat.lt_irrefl 1
    have hreg : (entry prog b).space = .register := entry_register.mpr
      (.inl ⟨Nat.not_lt.mp hle, (h.result_iff hb.lookup).mpr hroot, hb.bytes ▸ hsmall⟩)
    exact (h.inside_iff hb).mp (hf.inside hreg) hne u (hu ▸ List.mem_singleton_self u)

/-- What a register entry is, whichever pass has put it there. -/
theorem register_entry (h : Projected a clusters roots order s prog)
    (hb : Planned a clusters roots order s id t b) (hc : Consistent a clusters roots id t)
    (hreg : (entry prog b).space = .register) :
    ¬ 1 < (uses prog).getD b.slot 0 ∧ b.slot ∉ prog.results ∧ (clusters.isEmpty = false →
      ∀ u ∈ consumersOf a id.index, clusters.clusterOf u = clusters.clusterOf id) := by
  have hres := h.result_iff hb.lookup
  have hmulti := h.multi hb
  rcases entry_register.mp hreg with ⟨hle, hno, hsmall⟩ | hspace
  · refine ⟨Nat.not_lt.mpr hle, hno, fun hne u hu => ?_⟩
    have hlen : ¬ 1 < (consumersOf a id.index).length := mt hmulti.mpr (Nat.not_lt.mpr hle)
    have hone : consumersOf a id.index = [u] := by
      obtain ⟨v, hv⟩ := List.length_eq_one_iff.mp
        (Nat.le_antisymm (Nat.not_lt.mp hlen) (List.length_pos_of_mem hu))
      rw [hv, List.mem_singleton] at hu
      rw [hv, hu]
    exact hc.small hne (hb.bytes ▸ hsmall) (hres.mp hno) u hone
  · obtain ⟨hne, ⟨pc, henc⟩, hroot⟩ := hb.register.mp hspace
    obtain ⟨hone, hno⟩ := hc.enclosed hne ⟨pc, henc⟩ hroot
    refine ⟨?_, hres.mpr hno, fun _ u hu => ?_⟩
    · rw [hmulti, hone]
      exact Nat.lt_irrefl 1
    · rw [(henc.inside u hu).1, henc.owned]

/-- One entry is what the plan should have just when its tensor is treated
alike by the two passes. -/
theorem fused_iff (h : Projected a clusters roots order s prog)
    (hb : Planned a clusters roots order s id t b) :
    (entry prog b).Fused prog ↔ Consistent a clusters roots id t := by
  refine ⟨h.consistent_of_fused hb, fun hc => ⟨fun hreg => ?_, fun hreg => ?_, ?_⟩⟩
  · exact (h.register_entry hb hc hreg).2.1
  · exact (h.inside_iff hb).mpr (h.register_entry hb hc hreg).2.2
  · rintro ⟨hreg, hm⟩
    rcases entry_materialize.mp hm with hmany | hmem
    · exact (h.register_entry hb hc hreg).1 hmany
    · exact (h.register_entry hb hc hreg).2.1 hmem

theorem plan_fused_iff (h : Projected a clusters roots order s prog) :
    (∀ e ∈ (bufferize prog).entries, e.Fused prog) ↔
      ∀ id n t, (id, n) ∈ a.liveNodes → n.op.isParam = false → n.ty = .tensor t →
        Consistent a clusters roots id t := by
  simp only [bufferize, List.forall_mem_map]
  constructor
  · intro hall id n t hn hp hty
    obtain ⟨sop, he, hem, _⟩ := h.assigned.op_of_live h.scheduled hn hp
    have hsop : sop.ty = .tensor t := hem.ty_eq.trans hty
    obtain ⟨b, hb⟩ : ∃ b, planBuffer a roots clusters (id, sop) = some b := by
      simp [planBuffer, hsop]
    have hmem : b ∈ prog.buffers := h.buffers ▸ List.mem_filterMap.mpr ⟨_, he, hb⟩
    obtain ⟨t', hplan⟩ := planned_of_plan h.assigned he hb
    obtain ⟨m, _, _, hm, hmty, _⟩ := hplan.made
    obtain ⟨_, rfl⟩ := IrArena.live_unique hn hm.live rfl
    cases hty.symm.trans hmty
    exact (h.fused_iff hplan).mp (hall b hmem)
  · intro hall b hb
    obtain ⟨⟨id, sop⟩, he, hplan⟩ := List.mem_filterMap.mp (h.buffers ▸ hb)
    obtain ⟨t, hplan⟩ := planned_of_plan h.assigned he hplan
    obtain ⟨n, _, _, hem, hty, _⟩ := hplan.made
    exact (h.fused_iff hplan).mpr (hall id n t hem.live hem.not_param hty)

end Projected

end Bufferize

theorem lowerTarget_buffers {prog : LoopProgram} {l : LoweredProgram}
    (h : lowerTarget prog = .ok l) : l.buffers = bufferize prog := by
  obtain ⟨_, _, hret⟩ := bind_ok.mp h
  cases hret
  rfl

/-- The register entries of the plan that comes with the lowered program are
those that the fusion plan allows, exactly when the two passes treat each
tensor alike. -/
theorem registers_iff {a : IrArena} {roots : List NodeId} {clusters : ClusterSet}
    {prog : LoopProgram} (hv : verify a = .ok ())
    (hp : projectWithFusion a roots clusters = .ok prog) :
    ((∀ e ∈ (bufferize prog).entries, e.Fused prog) ∧
        ∀ l, lowerTarget prog = .ok l → ∀ e ∈ l.buffers.entries, e.Fused prog) ↔
      ∀ id n t, (id, n) ∈ a.liveNodes → n.op.isParam = false → n.ty = .tensor t →
        Consistent a clusters roots id t := by
  obtain ⟨order, s, h⟩ := Bufferize.exists_projection hv hp
  rw [← h.plan_fused_iff]
  refine ⟨And.left, fun hall => ⟨hall, fun l hl => ?_⟩⟩
  rw [lowerTarget_buffers hl]
  exact hall

/-- The square and its only reader are in one cluster. -/
theorem registers_iff_negatedSquare : ∃ prog,
    projectWithFusion negatedSquare [.pack 2 0 .graph] squareCluster = .ok prog ∧
      ∀ e ∈ (bufferize prog).entries, e.Fused prog := by
  have hok : (projectWithFusion negatedSquare [.pack 2 0 .graph] squareCluster).toOption.isSome =
      true := rfl
  obtain ⟨prog, hprog⟩ := Option.isSome_iff_exists.mp hok
  obtain ⟨_, _, hp⟩ := exists_projected hprog
  refine ⟨prog, hp, ((registers_iff rfl hp).mpr ?_).1⟩
  intro id n t hn hparam _
  have hids : ∀ e ∈ negatedSquare.liveNodes, e.2.op.isParam = false →
      e.1 = .pack 1 0 .graph ∨ e.1 = .pack 2 0 .graph := by decide
  have hread : consumersOf negatedSquare 1 = [.pack 2 0 .graph] := rfl
  have hunread : consumersOf negatedSquare 2 = [] := rfl
  have htags : squareCluster.clusterOf (.pack 2 0 .graph) =
      squareCluster.clusterOf (.pack 1 0 .graph) := rfl
  rcases hids _ hn hparam with rfl | rfl
  · refine ⟨fun _ _ _ => ⟨congrArg List.length hread, by simp⟩, fun _ _ _ u hu => ?_⟩
    cases hread.symm.trans hu
    exact htags
  · refine ⟨fun _ ⟨_, henc⟩ _ => absurd hunread henc.used, fun _ _ _ u hu => ?_⟩
    cases hunread.symm.trans hu

/-- The square in a cluster of its own. -/
def squareAlone : ClusterSet :=
  assigned ((ClusterSet.new negatedSquare).addCluster 0 0).2 0 (.pack 1 0 .graph)

/-- It goes into registers, although its one reader is in no cluster. -/
theorem register_crosses_clusters :
    verify negatedSquare = .ok () ∧ negatedSquare.IsLive (.pack 2 0 .graph) ∧
      squareAlone.Built ∧ ∃ prog,
        projectWithFusion negatedSquare [.pack 2 0 .graph] squareAlone = .ok prog ∧
        ∃ l, lowerTarget prog = .ok l ∧ l.buffers = bufferize prog ∧
          ∃ e ∈ l.buffers.entries, e.space = .register ∧
            ∃ w ∈ prog.ops, w.output = e.slot ∧
              ∃ r ∈ prog.ops, e.slot ∈ r.inputs ∧ r.cluster ≠ w.cluster := by
  have hlive : negatedSquare.IsLive (.pack 2 0 .graph) :=
    ⟨by decide, _, Eq.refl (negatedSquare.node (.pack 2 0 .graph))⟩
  have hbuilt : squareAlone.Built := assigned_built (.addCluster (.new negatedSquare))
  have hcrosses : ((projectWithFusion negatedSquare [.pack 2 0 .graph]
      squareAlone).toOption.any fun p => (lowerTarget p).toOption.any fun l =>
        l.buffers.entries.any fun e => e.space = .register && p.ops.any fun w =>
          w.output = e.slot && p.ops.any fun r =>
            r.inputs.contains e.slot && decide (r.cluster ≠ w.cluster)) = true := by
    rfl
  obtain ⟨prog, hprog, hcrosses⟩ := (Option.any_eq_true _ _).mp hcrosses
  obtain ⟨_, _, hp⟩ := exists_projected hprog
  obtain ⟨l, hl, hcrosses⟩ := (Option.any_eq_true _ _).mp hcrosses
  have hlower := toOption_eq_some.mp hl
  exact ⟨rfl, hlive, hbuilt, prog, hp, l, hlower, lowerTarget_buffers hlower,
    by simpa using hcrosses⟩

end Sxla
