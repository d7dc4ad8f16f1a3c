import Sxla.Ir.Live
import Sxla.Levels.SlotSafety

/-!
# Register buffers

A buffer planned in registers must not leave its cluster: its slot is no
result, and whatever reads it is in the writer's cluster and region. The plan
is made on node handles, of which readers are compared by slot and results by
all their bits. So it is right exactly when the roots name each value that
could stay inside by the handle the arena gives out now.
-/

namespace Sxla

open Checked Projection

variable {a : IrArena} {clusters : ClusterSet} {roots : List NodeId} {id : NodeId} {n : Node}
  {order : List NodeId} {s t : Projection} {prog : LoopProgram} {sop : ScheduledOp}
  {e w : NodeId × ScheduledOp} {c : NodeId → Option UInt32}

def regionAt (a : IrArena) (id : NodeId) : Option RegionId :=
  (a.node id).toOption.map (·.region)

/-- The slot is no result, something reads it, and what reads it carries the
writer's cluster tag and comes from the writer's region. -/
structure Contained (a : IrArena) (s : Projection) (prog : LoopProgram) (x : Nat) : Prop where
  no_result : x ∉ prog.results
  read : ∃ e ∈ s.ops, x ∈ e.2.inputs
  inside : ∀ w ∈ s.ops, w.2.output = x → ∀ e ∈ s.ops, x ∈ e.2.inputs →
    e.2.cluster = w.2.cluster ∧ regionAt a e.1 = regionAt a w.1

/-- Nothing but a root could keep the value out of registers. -/
structure Enclosed (a : IrArena) (clusters : ClusterSet) (id : NodeId) (pc : UInt32) : Prop where
  owned : clusters.clusterOf id = some pc
  kept : (clusters.cluster pc).any (·.materialize) = false
  used : consumersOf a id.index ≠ []
  inside : ∀ i ∈ consumersOf a id.index,
    clusters.clusterOf i = some pc ∧ regionAt a i = regionAt a id

/-- A root that stands for an enclosed tensor is its handle, bit for bit. -/
def RootsNamed (a : IrArena) (clusters : ClusterSet) (roots : List NodeId) : Prop :=
  clusters.isEmpty = false → ∀ r ∈ roots, ∀ id n, (id, n) ∈ a.liveNodes → r.index = id.index →
    n.op.isParam = false → (∃ t, n.ty = .tensor t) → (∃ pc, Enclosed a clusters id pc) → id ∈ roots

-- ---------------------------------------------------------------------------
-- Readers
-- ---------------------------------------------------------------------------

theorem mem_consumersOf {slot : Nat} : id ∈ consumersOf a slot ↔
    ∃ n, (id, n) ∈ a.liveNodes ∧ ∃ v ∈ n.valueInputs, v.node.index = slot := by
  simp only [consumersOf, List.mem_flatMap, List.mem_map, List.mem_filter, beq_iff_eq]
  constructor
  · rintro ⟨⟨i, n⟩, hn, v, ⟨hv, hslot⟩, rfl⟩
    exact ⟨n, hn, v, hv, hslot⟩
  · rintro ⟨n, hn, v, hv, hslot⟩
    exact ⟨(id, n), hn, v, ⟨hv, hslot⟩, rfl⟩

theorem regionAt_live (h : (id, n) ∈ a.liveNodes) : regionAt a id = some n.region := by
  rw [regionAt, IrArena.node_of_live h]
  rfl

theorem bufferSpace_register (h : (id, n) ∈ a.liveNodes) :
    bufferSpace a roots clusters id = .register ↔
      (∃ pc, Enclosed a clusters id pc) ∧ id ∉ roots := by
  unfold bufferSpace
  cases hpc : clusters.clusterOf id with
  | none =>
    simp only [reduceCtorEq, false_iff]
    rintro ⟨⟨pc, henc⟩, _⟩
    rw [henc.owned] at hpc
    cases hpc
  | some pc =>
    have hsame : (∃ pc, Enclosed a clusters id pc) ↔ Enclosed a clusters id pc := by
      constructor
      · rintro ⟨pc', henc⟩
        cases Option.some.inj (hpc.symm.trans henc.owned)
        exact henc
      · exact fun henc => ⟨pc, henc⟩
    rw [hsame]
    simp only [IrArena.node_of_live h]
    by_cases hmat : (clusters.cluster pc).any (·.materialize) = true
    · rw [if_pos hmat]
      refine ⟨fun hreg => (by cases hreg), fun h => ?_⟩
      rw [h.1.kept] at hmat
      cases hmat
    by_cases hroot : id ∈ roots
    · rw [if_neg hmat, if_pos (List.contains_iff_mem.mpr hroot)]
      exact ⟨fun hreg => (by cases hreg), fun h => absurd hroot h.2⟩
    by_cases hnone : (consumersOf a id.index).isEmpty = true
    · rw [if_neg hmat, if_neg (mt List.contains_iff_mem.mp hroot), if_pos hnone]
      exact ⟨fun hreg => (by cases hreg), fun h =>
        absurd (List.isEmpty_iff.mp hnone) h.1.used⟩
    rw [if_neg hmat, if_neg (mt List.contains_iff_mem.mp hroot), if_neg hnone]
    constructor
    · intro hreg
      split at hreg
      · next hall =>
        refine ⟨⟨hpc, by simpa using hmat, by simpa using hnone, fun i hi => ?_⟩, hroot⟩
        obtain ⟨m, hm, _⟩ := mem_consumersOf.mp hi
        have hinside := List.all_eq_true.mp hall i hi
        simpa [IrArena.node_of_live hm, regionAt_live hm, regionAt_live h] using hinside
      · cases hreg
    · rintro ⟨henc, _⟩
      refine if_pos (List.all_eq_true.mpr fun i hi => ?_)
      obtain ⟨m, hm, _⟩ := mem_consumersOf.mp hi
      have hinside := henc.inside i hi
      simpa [IrArena.node_of_live hm, regionAt_live hm, regionAt_live h] using hinside

-- ---------------------------------------------------------------------------
-- Cluster tags
-- ---------------------------------------------------------------------------

theorem bindParam_ops (h : bindParam a s id = .ok t) : t.ops = s.ops := by
  simp only [bindParam, bind_ok] at h
  obtain ⟨n, _, h⟩ := h
  split at h
  · cases h
    rfl
  · cases h
    rfl

/-- An emitted op carries the tag of its node. -/
theorem emitOp_tag (h : emitOp a c s id = .ok t) (hs : ∀ e ∈ s.ops, e.2.cluster = c e.1) :
    ∀ e ∈ t.ops, e.2.cluster = c e.1 := by
  simp only [emitOp, bind_ok] at h
  obtain ⟨n, _, h⟩ := h
  split at h
  · cases h
    exact hs
  · split at h
    · cases h
    · obtain ⟨inputs, _, h⟩ := bind_ok.mp h
      cases h
      intro e he
      rcases List.mem_append.mp he with he | he
      · exact hs e he
      · cases List.mem_singleton.mp he
        rfl

theorem assignSlots_tag (h : assignSlots a clusters = .ok s) (he : e ∈ s.ops) :
    e.2.cluster = if clusters.isEmpty then none else clusters.clusterOf e.1 := by
  unfold assignSlots at h
  cases hord : projectionOrder a clusters with
  | error e => simp [hord, bind, Except.bind] at h
  | ok order =>
    simp only [hord] at h
    obtain ⟨_, horder, h⟩ := bind_ok.mp h
    obtain ⟨t, ht, h⟩ := bind_ok.mp h
    have hops : t.ops = [] :=
      foldlM_preserves (P := fun s => s.ops = [])
        (fun _ _ _ hstep hs => (bindParam_ops hstep).trans hs) rfl ht
    exact foldlM_preserves (P := fun s => ∀ e ∈ s.ops, e.2.cluster = _)
      (fun _ _ _ hstep hs => emitOp_tag hstep hs) (by simp [hops]) h e he

-- ---------------------------------------------------------------------------
-- Ops and their readers
-- ---------------------------------------------------------------------------

theorem Projection.Assigned.reads_iff (h : Assigned a order s) (he : e ∈ s.ops)
    (hx : s.lookup id = .ok x) : x ∈ e.2.inputs ↔ e.1 ∈ consumersOf a id.index := by
  obtain ⟨m, hem⟩ := h.emitted e he
  have hslot := (lookup_ok h.table).mp hx
  rw [mem_consumersOf]
  constructor
  · intro hmem
    obtain ⟨v, hv, hvx, _⟩ := Schedule.mem_of_forall₂ hem.inputs hmem
    exact ⟨m, hem.live, v, hv, Option.some.inj (hvx.symm.trans hslot)⟩
  · rintro ⟨m', hm', v, hv, hvi⟩
    obtain ⟨_, rfl⟩ := IrArena.live_unique hem.live hm' rfl
    obtain ⟨y, hy, hvy, _⟩ := Schedule.mem_of_forall₂ hem.inputs.flip hv
    have hxy := hx.symm.trans ((lookup_ok h.table).mpr (hvi ▸ hvy))
    cases hxy
    exact hy

/-- In a verified arena whatever has operands is emitted as an op. -/
theorem Projection.Assigned.op_of_consumer (h : Assigned a order s) (hs : Scheduled a order)
    (hv : verify a = .ok ()) {i : NodeId} {slot : Nat} (hi : i ∈ consumersOf a slot) :
    ∃ e ∈ s.ops, e.1 = i := by
  obtain ⟨m, hm, v, hvm, _⟩ := mem_consumersOf.mp hi
  have hp : m.op.isParam = false := by
    by_contra hparam
    obtain ⟨k, hk⟩ := Op.isParam_iff.mp (by simpa using hparam)
    have harity := ((verify_ok.mp hv).2.2 i m hm).arity
    rw [hk] at harity
    simp [Node.valueInputs, List.length_eq_zero_iff.mp harity] at hvm
  obtain ⟨sop, he, _⟩ := h.op_of_live hs hm hp
  exact ⟨(i, sop), he, rfl⟩

theorem projectWithFusion_buffers (hs : assignSlots a clusters = .ok s)
    (h : projectWithFusion a roots clusters = .ok prog) :
    prog.buffers = s.ops.filterMap (planBuffer a roots clusters) := by
  simp only [projectWithFusion, bind_ok, hs] at h
  obtain ⟨s', hs', results, hr, h⟩ := h
  cases hs'
  cases h
  rfl

/-- The op behind a register buffer. -/
theorem planBuffer_register {slots : List Nat} (h : EmittedFrom a slots id n sop) :
    (∃ b, planBuffer a roots clusters (id, sop) = some b ∧ b.slot = x ∧ b.space = .register) ↔
      sop.output = x ∧ (∃ t, n.ty = .tensor t) ∧ clusters.isEmpty = false ∧
        (∃ pc, Enclosed a clusters id pc) ∧ id ∉ roots := by
  rw [← h.ty_eq, ← bufferSpace_register h.live]
  cases hty : sop.ty with
  | tensor ty =>
    simp only [planBuffer, hty, Option.some.injEq, exists_eq_left']
    cases clusters.isEmpty <;> simp
  | none => simp [planBuffer, hty]
  | scalar e => simp [planBuffer, hty]
  | token => simp [planBuffer, hty]
  | memRef ty space => simp [planBuffer, hty]

/-- What the plan keeps in registers stays inside, exactly when the roots name
the values that could by their handles. -/
theorem register_contained_iff (hv : verify a = .ok ()) (hs : assignSlots a clusters = .ok s)
    (hp : projectWithFusion a roots clusters = .ok prog) :
    (∀ b ∈ prog.buffers, b.space = .register → Contained a s prog b.slot) ↔
      RootsNamed a clusters roots := by
  obtain ⟨order, hord, h⟩ := assignSlots_ok hs
  have hsched := projectionOrder_scheduled hord
  obtain ⟨_, _, hresults⟩ := projectWithFusion_ok hs hp
  rw [projectWithFusion_buffers hs hp]
  constructor
  · intro hall hne r hr id n hn hslot hop hty henc
    by_contra hroot
    obtain ⟨sop, he, hem, hx⟩ := h.op_of_live hsched hn hop
    obtain ⟨b, hb, hbx, hreg⟩ := (planBuffer_register hem).mpr ⟨rfl, hty, hne, henc, hroot⟩
    have hcont := hall b (List.mem_filterMap.mpr ⟨_, he, hb⟩) hreg
    obtain ⟨y, hy, hry⟩ := Schedule.mem_of_forall₂ hresults.flip hr
    have hrx : s.lookup r = .ok sop.output := by
      rw [lookup_ok h.table, hslot, ← lookup_ok h.table, hx]
    cases hry.symm.trans hrx
    exact hcont.no_result (hbx ▸ hy)
  · intro hnamed b hb hreg
    obtain ⟨⟨id, sop⟩, he, hplan⟩ := List.mem_filterMap.mp hb
    obtain ⟨n, hem⟩ := h.emitted _ he
    obtain ⟨hout, hty, hne, ⟨pc, henc⟩, hroot⟩ :=
      (planBuffer_register hem).mp ⟨b, hplan, rfl, hreg⟩
    have hx : s.lookup id = .ok b.slot := hout ▸ (lookup_ok h.table).mpr hem.output
    refine ⟨fun hres => ?_, ?_, fun w hw hwx e he' hread => ?_⟩
    · obtain ⟨r, hr, hrx⟩ := Schedule.mem_of_forall₂ hresults hres
      have hslot := ((lookup_ok h.table).mp hrx).symm.trans ((lookup_ok h.table).mp hx)
      exact hroot (hnamed hne r hr id n hem.live (Option.some.inj hslot) hem.not_param hty
        ⟨pc, henc⟩)
    · obtain ⟨i, hi⟩ := List.exists_mem_of_ne_nil _ henc.used
      obtain ⟨e, he', rfl⟩ := h.op_of_consumer hsched hv hi
      exact ⟨e, he', (h.reads_iff he' hx).mpr hi⟩
    · obtain ⟨m, hwm⟩ := h.emitted w hw
      have hwx' : s.lookup w.1 = .ok b.slot := hwx ▸ (lookup_ok h.table).mpr hwm.output
      obtain ⟨hid, _⟩ := h.slot_unique hem.live hwm.live hx hwx'
      obtain ⟨hcluster, hregion⟩ := henc.inside e.1 ((h.reads_iff he' hx).mp hread)
      rw [assignSlots_tag hs he', assignSlots_tag hs hw, ← hid, hcluster, henc.owned]
      exact ⟨rfl, hregion⟩

def squareTy : Ty := .tensor ⟨.f64, ⟨[4, 4], by decide, by simp, by simp⟩, .rowMajor⟩

/-- A parameter's square and its negation. -/
def negatedSquare : IrArena := .built do
  let a := IrArena.withCapacity 4 1
  let (x, a) ← a.insertNode a.rootRegion (.new (.param 0) a.rootRegion [] squareTy)
  let xval ← a.valueOf x 0
  let (y, a) ← a.insertNode a.rootRegion (.new .dot a.rootRegion [xval, xval] squareTy)
  let yval ← a.valueOf y 0
  let (_, a) ← a.insertNode a.rootRegion (.new (.unary .neg) a.rootRegion [yval] squareTy)
  return a

/-- The set itself where the node cannot go into the cluster. -/
def assigned (cs : ClusterSet) (index : UInt32) (node : NodeId) : ClusterSet :=
  (cs.assign index node).toOption.getD cs

theorem assigned_built {index : UInt32} {node : NodeId} (h : clusters.Built) :
    (assigned clusters index node).Built := by
  unfold assigned
  cases hassign : clusters.assign index node with
  | ok cs => exact h.assign hassign
  | error e => exact h

/-- The square and its negation in one cluster. -/
def squareCluster : ClusterSet :=
  assigned (assigned ((ClusterSet.new negatedSquare).addCluster 0 0).2 0 (.pack 1 0 .graph)) 0
    (.pack 2 0 .graph)

theorem register_contained_iff_negatedSquare :
    ∃ s prog, assignSlots negatedSquare squareCluster = .ok s ∧
      projectWithFusion negatedSquare [.pack 2 0 .graph] squareCluster = .ok prog ∧
      ∀ b ∈ prog.buffers, b.space = .register → Contained negatedSquare s prog b.slot := by
  have hok : (projectWithFusion negatedSquare [.pack 2 0 .graph] squareCluster).toOption.isSome =
      true := rfl
  obtain ⟨prog, hprog⟩ := Option.isSome_iff_exists.mp hok
  obtain ⟨s, hs, hp⟩ := exists_projected hprog
  refine ⟨s, prog, hs, hp, (register_contained_iff rfl hs hp).mpr ?_⟩
  intro _ r hr id n hn hslot _ _ _
  have hids : ∀ e ∈ negatedSquare.liveNodes, e.1.index = 2 → e.1 = .pack 2 0 .graph := by
    decide
  obtain rfl := List.mem_singleton.mp hr
  exact List.mem_singleton.mpr (hids _ hn hslot.symm)

/-- The product has become a matrix product: the handle that its insertion
returned has another level than the one it has now. -/
def negatedMatmul : IrArena := .built do
  negatedSquare.modifyNode (.pack 1 0 .graph) fun n => { n with op := .matmul false false }

/-- The result of the program is planned in registers. -/
theorem negatedMatmul_not_contained :
    verify negatedMatmul = .ok () ∧ negatedMatmul.IsLive (.pack 1 0 .graph) ∧
      squareCluster.Built ∧
      ∃ s prog, assignSlots negatedMatmul squareCluster = .ok s ∧
        projectWithFusion negatedMatmul [.pack 1 0 .graph] squareCluster = .ok prog ∧
        ∃ b ∈ prog.buffers, b.space = .register ∧ b.slot ∈ prog.results := by
  have hlive : negatedMatmul.IsLive (.pack 1 0 .graph) :=
    ⟨by decide, _, Eq.refl (negatedMatmul.node (.pack 1 0 .graph))⟩
  have hbuilt : squareCluster.Built :=
    assigned_built (assigned_built (.addCluster (.new negatedSquare)))
  have hescapes : ((projectWithFusion negatedMatmul [.pack 1 0 .graph] squareCluster).toOption.any
      fun p => p.buffers.any fun b => b.space = .register && p.results.contains b.slot) = true := by
    rfl
  obtain ⟨prog, hprog, hescapes⟩ := (Option.any_eq_true _ _).mp hescapes
  obtain ⟨s, hs, hp⟩ := exists_projected hprog
  exact ⟨rfl, hlive, hbuilt, s, prog, hs, hp, by simpa using hescapes⟩

end Sxla
