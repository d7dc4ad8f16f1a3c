import Sxla.Graph.Verifier
import Sxla.Levels.Level4
import Sxla.Levels.SlotLaws

/-!
# Which slots a program may read

`SlotSafe` says that a lowered program reads no slot before it is written.
Lowering drops the ops of the fusion, loop and target levels but keeps the
slots of their values, so it holds exactly when no kept node and no root
uses such a value, nothing is sampled (a sample reads its own destination),
and the value count covers the parameters (`slotSafe_iff`).
-/

namespace Sxla

open Checked Projection

variable {a : IrArena} {id : NodeId} {n : Node} {order : List NodeId} {s : Projection}
  {sop : ScheduledOp} {i : Instr} {prog : LoopProgram} {tp : TargetProgram} {x slot : Nat}
  {id' : NodeId} {n' : Node}

/-- Ops that lowering turns into an instruction. -/
def Op.hasInstr : Op → Bool
  | .param _ => false
  | .ifOp | .custom _ => false
  | .fusionCluster | .fusionBarrier | .fusionMaterialize => false
  | .loopParallel _ | .loopAlloc .. | .loopAsyncCopy | .loopPipelineStage _ => false
  | .targetMma | .targetWarpShuffle | .targetBarrier => false
  | _ => true

def Op.isRng : Op → Bool
  | .rng .. => true
  | _ => false

theorem Op.isParam_of_hasInstr {op : Op} (h : op.hasInstr = true) : op.isParam = false := by
  cases op <;> first | rfl | cases h

theorem Op.hasInstr_of_isRng {op : Op} (h : op.isRng = true) : op.hasInstr = true := by
  cases op <;> first | rfl | cases h

/-- The parameter nodes' value slots. -/
def ParamSlot (a : IrArena) (s : Projection) (x : Nat) : Prop :=
  ∃ id n, (id, n) ∈ a.liveNodes ∧ n.op.isParam = true ∧ s.lookup id = .ok x

/-- No slot is read before it is written, every node has a slot of its own,
and every slot is inside the table. -/
structure SlotSafe (a : IrArena) (s : Projection) (tp : TargetProgram) : Prop where
  reads : ∀ (l : List Instr) (i : Instr) (r : List Instr), tp.instrs = l ++ i :: r →
    ∀ x ∈ i.reads, ParamSlot a s x ∨ ∃ w ∈ l, w.dst = x
  results : ∀ x ∈ tp.results, ParamSlot a s x ∨ ∃ w ∈ tp.instrs, w.dst = x
  bounded : ∀ id n, (id, n) ∈ a.liveNodes → ∀ x, s.lookup id = .ok x → x < tp.valueCount
  distinct : ∀ id n id' n', (id, n) ∈ a.liveNodes → (id', n') ∈ a.liveNodes →
    ∀ x, s.lookup id = .ok x → s.lookup id' = .ok x → id = id'

/-- Slots that hold a value when they are read: parameters and kept ops. -/
def Op.provides (op : Op) : Bool := op.isParam || op.hasInstr

def paramCount (a : IrArena) : Nat := (a.liveNodes.filter fun e => e.2.op.isParam).length

/-- The condition on the arena and the roots. -/
structure Initialised (a : IrArena) (roots : List NodeId) : Prop where
  inputs : ∀ id n, (id, n) ∈ a.liveNodes → n.op.hasInstr = true → ∀ v ∈ n.valueInputs,
    ∀ p d, (p, d) ∈ a.liveNodes → p.index = v.node.index → d.op.provides = true
  roots : ∀ r ∈ roots, ∀ p d, (p, d) ∈ a.liveNodes → p.index = r.index → d.op.provides = true
  no_rng : ∀ id n, (id, n) ∈ a.liveNodes → n.op.isRng = false
  covered : (∃ id n, (id, n) ∈ a.liveNodes ∧ n.op.isParam = false) ∨
    paramCount a ≤ paramSpan a % 2 ^ 32

-- ---------------------------------------------------------------------------
-- Lowering op by op
-- ---------------------------------------------------------------------------

/-- The instruction of an op that has one. -/
def instrOf (sop : ScheduledOp) : Option Instr :=
  match lowerOp sop with
  | .ok (some i) => some i
  | _ => none

theorem filterMap_of_mapM {ops : List ScheduledOp} {l : List (Option Instr)}
    (h : List.Forall₂ (fun sop i => lowerOp sop = .ok i) ops l) :
    l.filterMap (fun i => i) = ops.filterMap instrOf := by
  induction h with
  | nil => rfl
  | @cons sop i ops l hx _ ih =>
    cases i <;> simp [instrOf, hx, ih]

theorem lower_ok (h : lower prog = .ok tp) :
    tp.instrs = prog.ops.filterMap instrOf ∧ tp.results = prog.results ∧
      tp.valueCount = prog.valueCount := by
  simp only [lower, bind_ok, pure_ok] at h
  obtain ⟨l, hl, rfl⟩ := h
  exact ⟨filterMap_of_mapM (mapM_ok.mp hl), rfl, rfl⟩

theorem instrOf_isSome : (instrOf sop).isSome = sop.op.hasInstr := by
  unfold instrOf lowerOp
  cases sop.op <;> rfl

theorem instrOf_dst (h : instrOf sop = some i) : i.dst = sop.output := by
  unfold instrOf lowerOp at h
  cases ho : sop.op with
  | binary b => cases b <;> simp only [ho, lowerBinary, Option.some.injEq] at h <;> subst h <;> rfl
  | unary u => cases u <;> simp only [ho, lowerUnary, Option.some.injEq] at h <;> subst h <;> rfl
  | _ => simp only [ho, Option.some.injEq, reduceCtorEq] at h <;> subst h <;> rfl

theorem list_of_length_one {l : List Nat} (h : l.length = 1) : [l.getD 0 0] = l := by
  obtain ⟨x, rfl⟩ := List.length_eq_one_iff.mp h
  rfl

theorem list_of_length_two {l : List Nat} (h : l.length = 2) : [l.getD 0 0, l.getD 1 0] = l := by
  obtain ⟨x, y, rfl⟩ := List.length_eq_two.mp h
  rfl

/-- With its declared arity, an instruction reads its op's operands. -/
theorem instrOf_reads (h : instrOf sop = some i) (ha : sop.inputs.length = expectedArity sop.op) :
    i.reads = if sop.op.isRng then [sop.output] else sop.inputs := by
  unfold instrOf lowerOp at h
  cases ho : sop.op with
  | binary b =>
    rw [ho] at ha
    cases b <;> simp only [ho, lowerBinary, Option.some.injEq] at h <;> subst h <;>
      exact list_of_length_two ha
  | unary u =>
    rw [ho] at ha
    cases u <;> simp only [ho, lowerUnary, Option.some.injEq] at h <;> subst h <;>
      exact list_of_length_one ha
  | constI64 v | constF64 v =>
    rw [ho] at ha
    simp only [ho, Option.some.injEq] at h
    subst h
    exact (List.length_eq_zero_iff.mp ha).symm
  | rng dist seed =>
    simp only [ho, Option.some.injEq] at h
    subst h
    rfl
  | dot | matmul ta tb | conv padding stride =>
    rw [ho] at ha
    simp only [ho, Option.some.injEq] at h
    subst h
    exact list_of_length_two ha
  | reduce axis monoid | broadcast target | transpose perm rank =>
    rw [ho] at ha
    simp only [ho, Option.some.injEq] at h
    subst h
    exact list_of_length_one ha
  | _ => simp [ho] at h

-- ---------------------------------------------------------------------------
-- Slots and nodes
-- ---------------------------------------------------------------------------

/-- The live node that a value slot was handed to. -/
theorem live_of_slot (hs : Scheduled a order)
    (hx : (slotOrder a order)[x]? = some slot) : ∃ id n, (id, n) ∈ a.liveNodes ∧ id.index = slot :=
  IrArena.exists_live ((slotOrder_perm hs).mem_iff.mp (List.mem_of_getElem? hx))

theorem Projection.Assigned.lookup_of_live (h : Assigned a order s) (hs : Scheduled a order)
    (hn : (id, n) ∈ a.liveNodes) : ∃ x, s.lookup id = .ok x := by
  have hm := (slotOrder_perm hs).mem_iff.mpr (IrArena.index_mem_liveSlots hn)
  obtain ⟨x, hx⟩ := List.mem_iff_getElem?.mp hm
  exact ⟨x, (lookup_ok h.table).mpr hx⟩

theorem Projection.Assigned.slot_unique (h : Assigned a order s) (hn : (id, n) ∈ a.liveNodes)
    (hn' : (id', n') ∈ a.liveNodes) (hx : s.lookup id = .ok x) (hx' : s.lookup id' = .ok x) :
    id = id' ∧ n = n' := by
  rw [lookup_ok h.table] at hx hx'
  rw [hx, Option.some.injEq] at hx'
  exact IrArena.live_unique hn hn' hx'

theorem slotOrder_length : (slotOrder a order).length =
    (paramSlots a order).length + (opSlots a order).length := by
  simp [slotOrder]

theorem Projection.Assigned.lookup_lt (h : Assigned a order s) (hx : s.lookup id = .ok x) :
    x < (paramSlots a order).length + (opSlots a order).length := by
  rw [lookup_ok h.table] at hx
  rw [← slotOrder_length]
  exact (List.getElem?_eq_some_iff.mp hx).1

/-- Parameters have the leading slots, ops the others. -/
theorem Projection.Assigned.isParam_iff (h : Assigned a order s) (hs : Scheduled a order)
    (hn : (id, n) ∈ a.liveNodes) (hx : s.lookup id = .ok x) :
    n.op.isParam = true ↔ x < (paramSlots a order).length := by
  rw [lookup_ok h.table, slotOrder] at hx
  have hmem : ∀ p : Bool, id.index ∈ (order.filter fun i => isParam a i == p).map (·.index) →
      n.op.isParam = p := by
    intro p hm
    obtain ⟨q, hq, hqi⟩ := List.mem_map.mp hm
    obtain ⟨hqo, hqp⟩ := List.mem_filter.mp hq
    obtain ⟨m, hlive⟩ := live_of_mem hs hqo
    obtain ⟨rfl, rfl⟩ := IrArena.live_unique hlive hn hqi
    rw [← isParam_live hlive]
    simpa using hqp
  constructor
  · intro hp
    by_contra hlt
    rw [List.getElem?_append_right (Nat.le_of_not_lt hlt)] at hx
    have := hmem false (by simpa [opSlots] using List.mem_of_getElem? hx)
    rw [hp] at this
    cases this
  · intro hlt
    rw [List.getElem?_append_left hlt] at hx
    exact hmem true (by simpa [paramSlots] using List.mem_of_getElem? hx)

theorem Projection.Assigned.paramSlot_iff (h : Assigned a order s)
    (hn : (id, n) ∈ a.liveNodes) (hx : s.lookup id = .ok x) :
    ParamSlot a s x ↔ n.op.isParam = true := by
  constructor
  · rintro ⟨id', n', hn', hp, hx'⟩
    obtain ⟨rfl, rfl⟩ := h.slot_unique hn hn' hx hx'
    exact hp
  · intro hp
    exact ⟨id, n, hn, hp, hx⟩

/-- The op of a live node that is no parameter. -/
theorem Projection.Assigned.op_of_live (h : Assigned a order s) (hs : Scheduled a order)
    (hn : (id, n) ∈ a.liveNodes) (hp : n.op.isParam = false) :
    ∃ sop, (id, sop) ∈ s.ops ∧ EmittedFrom a (slotOrder a order) id n sop ∧
      s.lookup id = .ok sop.output := by
  obtain ⟨x, hx⟩ := h.lookup_of_live hs hn
  have hlt := h.lookup_lt hx
  have hge : ¬ x < (paramSlots a order).length := fun hlt => by
    rw [(h.isParam_iff hs hn hx).mpr hlt] at hp
    cases hp
  have hmem : x ∈ s.ops.map (·.2.output) := by
    rw [h.outputs, List.mem_range'_1]
    omega
  obtain ⟨⟨id', sop⟩, hm, rfl⟩ := List.mem_map.mp hmem
  obtain ⟨n', he⟩ := h.emitted _ hm
  obtain ⟨rfl, rfl⟩ := h.slot_unique he.live hn ((lookup_ok h.table).mpr he.output) hx
  exact ⟨sop, hm, he, hx⟩

/-- Every op before another one has the smaller output, and only those. -/
theorem Projection.Assigned.mem_of_output_lt (h : Assigned a order s) (ho : s.ops = l ++ e :: r)
    (he' : e' ∈ s.ops) (hlt : e'.2.output < e.2.output) : e' ∈ l := by
  have hsorted : (s.ops.map (·.2.output)).Pairwise (· < ·) := h.outputs ▸ List.pairwise_lt_range'
  rw [ho, List.map_append, List.map_cons, List.pairwise_append, List.pairwise_cons] at hsorted
  rw [ho] at he'
  rcases List.mem_append.mp he' with hm | hm
  · exact hm
  · rcases List.mem_cons.mp hm with rfl | hm
    · omega
    · have := hsorted.2.1.1 _ (List.mem_map_of_mem hm)
      omega

theorem Projection.Assigned.output_lt (h : Assigned a order s)
    {l r : List (NodeId × ScheduledOp)} {e e' : NodeId × ScheduledOp} (ho : s.ops = l ++ e :: r)
    (he' : e' ∈ l) : e'.2.output < e.2.output := by
  have hsorted : (s.ops.map (·.2.output)).Pairwise (· < ·) := h.outputs ▸ List.pairwise_lt_range'
  rw [ho, List.map_append, List.map_cons, List.pairwise_append] at hsorted
  exact hsorted.2.2 _ (List.mem_map_of_mem he') _ (by simp)

theorem Projection.Assigned.length_ops (h : Assigned a order s) :
    s.ops.length = (opSlots a order).length := by
  have := congrArg List.length h.outputs
  simpa using this

theorem paramCount_eq (hs : Scheduled a order) : paramCount a = (paramSlots a order).length := by
  have hperm : (order.filter (isParam a)).length = (a.liveIds.filter (isParam a)).length :=
    (hs.perm.filter _).length_eq
  rw [paramSlots, List.length_map, hperm, IrArena.liveIds, List.filter_map, List.length_map,
    paramCount]
  congr 1
  exact List.filter_congr fun e he => (isParam_live he).symm

-- ---------------------------------------------------------------------------
-- Programs
-- ---------------------------------------------------------------------------

theorem projectWithFusion_ok {clusters : ClusterSet} {roots : List NodeId}
    (hs : assignSlots a clusters = .ok s) (h : projectWithFusion a roots clusters = .ok prog) :
    prog.params = s.params ∧ prog.ops = s.ops.map (·.2) ∧
      List.Forall₂ (fun r x => s.lookup r = .ok x) roots prog.results := by
  simp only [projectWithFusion, bind_ok, hs] at h
  obtain ⟨s', hs', results, hr, h⟩ := h
  rw [Except.ok.injEq] at hs' h
  subst hs' h
  exact ⟨rfl, rfl, mapM_ok.mp hr⟩

theorem foldl_max_output (ops : List ScheduledOp) (m : Nat) :
    m ≤ ops.foldl (fun m op => max m (op.output + 1)) m ∧
      ∀ op ∈ ops, op.output < ops.foldl (fun m op => max m (op.output + 1)) m := by
  induction ops generalizing m with
  | nil => simp
  | cons op ops ih =>
    obtain ⟨hm, hops⟩ := ih (max m (op.output + 1))
    rw [List.foldl_cons]
    refine ⟨le_trans (le_max_left _ _) hm, fun o ho => ?_⟩
    rcases List.mem_cons.mp ho with rfl | ho
    · exact lt_of_lt_of_le (Nat.lt_succ_self _) (le_trans (le_max_right _ _) hm)
    · exact hops o ho

/-- What a successful projection and lowering are made of. -/
structure Compiled (a : IrArena) (roots : List NodeId) (order : List NodeId) (s : Projection)
    (tp : TargetProgram) : Prop where
  scheduled : Scheduled a order
  assigned : Assigned a order s
  instrs : tp.instrs = s.ops.filterMap fun e => instrOf e.2
  results : List.Forall₂ (fun r x => s.lookup r = .ok x) roots tp.results
  valueCount : tp.valueCount =
    (s.ops.map (·.2)).foldl (fun m op => max m (op.output + 1)) (paramSpan a % 2 ^ 32)

theorem compiled_of_ok {clusters : ClusterSet} {roots : List NodeId}
    (hs : assignSlots a clusters = .ok s) (hp : projectWithFusion a roots clusters = .ok prog)
    (hl : lower prog = .ok tp) :
    ∃ order, projectionOrder a clusters = .ok order ∧ Compiled a roots order s tp := by
  obtain ⟨order, ho, hassigned⟩ := assignSlots_ok hs
  obtain ⟨hparams, hops, hresults⟩ := projectWithFusion_ok hs hp
  obtain ⟨hinstrs, hres, hcount⟩ := lower_ok hl
  refine ⟨order, ho, projectionOrder_scheduled ho, hassigned, ?_, ?_, ?_⟩
  · rw [hinstrs, hops, List.filterMap_map]
    rfl
  · rw [hres]
    exact hresults
  · rw [hcount, LoopProgram.valueCount, hops, hparams, hassigned.params]

theorem exists_projected {r : List NodeId} {c : ClusterSet}
    (h : (projectWithFusion a r c).toOption = some prog) :
    ∃ s, assignSlots a c = .ok s ∧ projectWithFusion a r c = .ok prog := by
  cases hp : projectWithFusion a r c with
  | error e => simp [hp, Except.toOption] at h
  | ok p =>
    obtain rfl : p = prog := by simpa [hp, Except.toOption] using h
    have hs := hp
    simp only [projectWithFusion, bind_ok] at hs
    obtain ⟨s, hs, _⟩ := hs
    exact ⟨s, hs, rfl⟩

/-- What an arena compiles to is found by running the two passes. -/
theorem compiled_as {r : List NodeId} {c : ClusterSet}
    (h : ((projectWithFusion a r c).toOption.bind fun p => (lower p).toOption) = some tp) :
    ∃ s prog, assignSlots a c = .ok s ∧ projectWithFusion a r c = .ok prog ∧
      lower prog = .ok tp := by
  obtain ⟨prog, hprog, hl⟩ := Option.bind_eq_some_iff.mp h
  obtain ⟨s, hs, hp⟩ := exists_projected hprog
  refine ⟨s, prog, hs, hp, ?_⟩
  cases hlow : lower prog with
  | error e => simp [hlow, Except.toOption] at hl
  | ok tp' => simpa [hlow, Except.toOption] using hl

theorem exists_compiled {r : List NodeId} {c : ClusterSet}
    (h : ((projectWithFusion a r c).toOption.bind fun p => (lower p).toOption).isSome = true) :
    ∃ s prog tp, assignSlots a c = .ok s ∧ projectWithFusion a r c = .ok prog ∧
      lower prog = .ok tp := by
  obtain ⟨tp, htp⟩ := Option.isSome_iff_exists.mp h
  obtain ⟨s, prog, hs, hp, hl⟩ := compiled_as htp
  exact ⟨s, prog, tp, hs, hp, hl⟩

variable {roots : List NodeId}

/-- An instruction and the op it was lowered from, in place. -/
theorem Compiled.split (h : Compiled a roots order s tp) (hi : tp.instrs = l ++ i :: r) :
    ∃ (l' : List (NodeId × ScheduledOp)) (e : NodeId × ScheduledOp)
      (r' : List (NodeId × ScheduledOp)), s.ops = l' ++ e :: r' ∧ instrOf e.2 = some i ∧
        l = l'.filterMap fun e => instrOf e.2 := by
  rw [h.instrs] at hi
  obtain ⟨l', t, ho, rfl, ht⟩ := List.filterMap_eq_append_iff.mp hi
  obtain ⟨l₁, e, r', rfl, hnone, he, rfl⟩ := List.filterMap_eq_cons_iff.mp ht
  refine ⟨l' ++ l₁, e, r', by simp [ho], he, ?_⟩
  rw [List.filterMap_append, List.filterMap_eq_nil_iff.mpr hnone, List.append_nil]

theorem Compiled.split_of_ops (h : Compiled a roots order s tp)
    {l r : List (NodeId × ScheduledOp)} {e : NodeId × ScheduledOp} (ho : s.ops = l ++ e :: r)
    (hi : instrOf e.2 = some i) : tp.instrs =
      l.filterMap (fun e => instrOf e.2) ++ i :: r.filterMap fun e => instrOf e.2 := by
  rw [h.instrs, ho, List.filterMap_append]
  exact congrArg _ (List.filterMap_cons_some hi)

theorem Compiled.mem_instrs (h : Compiled a roots order s tp) (he : (id, sop) ∈ s.ops)
    (hi : sop.op.hasInstr = true) : ∃ i ∈ tp.instrs, instrOf sop = some i := by
  obtain ⟨i, hi⟩ := Option.isSome_iff_exists.mp (instrOf_isSome ▸ hi)
  exact ⟨i, h.instrs ▸ List.mem_filterMap.mpr ⟨_, he, hi⟩, hi⟩

/-- A slot with a writing instruction belongs to a kept op. -/
theorem Compiled.hasInstr_of_writer (h : Compiled a roots order s tp)
    (hn : (id, n) ∈ a.liveNodes) (hx : s.lookup id = .ok x) (hw : w ∈ tp.instrs)
    (hd : w.dst = x) : n.op.hasInstr = true := by
  rw [h.instrs] at hw
  obtain ⟨⟨id', sop⟩, he, hi⟩ := List.mem_filterMap.mp hw
  obtain ⟨n', hem⟩ := h.assigned.emitted _ he
  have hout := (lookup_ok h.assigned.table).mpr hem.output
  rw [instrOf_dst hi] at hd
  obtain ⟨rfl, rfl⟩ := h.assigned.slot_unique hem.live hn hout (hd ▸ hx)
  rw [← hem.op_eq, ← instrOf_isSome, hi]
  rfl

/-- Reading a slot is safe when the node behind it provides a value; `W`
holds the instructions ahead of the read. -/
theorem Compiled.provides_iff (h : Compiled a roots order s tp) (hn : (id, n) ∈ a.liveNodes)
    (hx : s.lookup id = .ok x) {W : List Instr} (hW : ∀ w ∈ W, w ∈ tp.instrs)
    (hall : ∀ sop, (id, sop) ∈ s.ops → ∀ w, instrOf sop = some w → w ∈ W) :
    (ParamSlot a s x ∨ ∃ w ∈ W, w.dst = x) ↔ n.op.provides = true := by
  rw [h.assigned.paramSlot_iff hn hx, Op.provides, Bool.or_eq_true]
  constructor
  · rintro (hp | ⟨w, hw, hd⟩)
    · exact .inl hp
    · exact .inr (h.hasInstr_of_writer hn hx (hW w hw) hd)
  · rintro (hp | hi)
    · exact .inl hp
    cases hp : n.op.isParam with
    | true => exact .inl rfl
    | false =>
      obtain ⟨sop, he, hem, hout⟩ := h.assigned.op_of_live h.scheduled hn hp
      obtain ⟨w, _, hw⟩ := h.mem_instrs he (hem.op_eq ▸ hi)
      rw [hx, Except.ok.injEq] at hout
      exact .inr ⟨w, hall sop he w hw, hout ▸ instrOf_dst hw⟩

theorem Compiled.write_before (h : Compiled a roots order s tp) {l r : List (NodeId × ScheduledOp)}
    {e : NodeId × ScheduledOp} (ho : s.ops = l ++ e :: r) (he : (id, sop) ∈ s.ops)
    (hlt : sop.output < e.2.output) (hi : instrOf sop = some i) :
    i ∈ l.filterMap fun e => instrOf e.2 :=
  List.mem_filterMap.mpr ⟨_, h.assigned.mem_of_output_lt ho he hlt, hi⟩

/-- No instruction ahead of an op's own writes its slot. -/
theorem Compiled.not_written_before (h : Compiled a roots order s tp)
    {l r : List (NodeId × ScheduledOp)} {e : NodeId × ScheduledOp} (ho : s.ops = l ++ e :: r) :
    ¬ ∃ w ∈ l.filterMap (fun e => instrOf e.2), w.dst = e.2.output := by
  rintro ⟨w, hw, hd⟩
  obtain ⟨e', he', hi⟩ := List.mem_filterMap.mp hw
  have := h.assigned.output_lt ho he'
  rw [instrOf_dst hi] at hd
  omega

-- ---------------------------------------------------------------------------
-- Reads, results and bounds
-- ---------------------------------------------------------------------------

theorem arity_of_emitted (hv : verify a = .ok ()) (h : EmittedFrom a slots id n sop) :
    sop.inputs.length = expectedArity sop.op := by
  have harity := ((verify_ok.mp hv).2.2 id n h.live).arity
  have hle := Verifier.expectedArity_le n.op
  rw [← h.inputs.length_eq, h.op_eq, ← harity, Node.valueInputs, List.length_take]
  omega

/-- Reading an operand is safe exactly when its producer provides a value. -/
theorem Compiled.operand_iff (h : Compiled a roots order s tp)
    {l r : List (NodeId × ScheduledOp)} {e : NodeId × ScheduledOp} (ho : s.ops = l ++ e :: r)
    (hn : (id, n) ∈ a.liveNodes) (hx : (slotOrder a order)[x]? = some id.index)
    (hlt : x < e.2.output) :
    (ParamSlot a s x ∨ ∃ w ∈ l.filterMap (fun e => instrOf e.2), w.dst = x) ↔
      n.op.provides = true := by
  have hx' : s.lookup id = .ok x := (lookup_ok h.assigned.table).mpr hx
  refine h.provides_iff hn hx' ?_ ?_
  · intro w hw
    obtain ⟨e', he', hi⟩ := List.mem_filterMap.mp hw
    rw [h.instrs, ho]
    exact List.mem_filterMap.mpr ⟨e', List.mem_append_left _ he', hi⟩
  · intro sop' he' w hw
    obtain ⟨n', hem⟩ := h.assigned.emitted _ he'
    have hout := (lookup_ok h.assigned.table).mpr hem.output
    rw [hx', Except.ok.injEq] at hout
    exact h.write_before ho he' (hout ▸ hlt) hw

theorem Compiled.result_iff (h : Compiled a roots order s tp) (hn : (id, n) ∈ a.liveNodes)
    (hx : (slotOrder a order)[x]? = some id.index) :
    (ParamSlot a s x ∨ ∃ w ∈ tp.instrs, w.dst = x) ↔ n.op.provides = true := by
  refine h.provides_iff hn ((lookup_ok h.assigned.table).mpr hx) (fun w hw => hw) ?_
  intro sop he w hw
  rw [h.instrs]
  exact List.mem_filterMap.mpr ⟨_, he, hw⟩

theorem Compiled.reads_iff (hv : verify a = .ok ()) (h : Compiled a roots order s tp) :
    (∀ (l : List Instr) (i : Instr) (r : List Instr), tp.instrs = l ++ i :: r →
      ∀ x ∈ i.reads, ParamSlot a s x ∨ ∃ w ∈ l, w.dst = x) ↔
      (∀ id n, (id, n) ∈ a.liveNodes → n.op.hasInstr = true → ∀ v ∈ n.valueInputs,
        ∀ p d, (p, d) ∈ a.liveNodes → p.index = v.node.index → d.op.provides = true) ∧
      ∀ id n, (id, n) ∈ a.liveNodes → n.op.isRng = false := by
  constructor
  · intro hreads
    -- the op of a live node that has an instruction, with what stands ahead of it
    have hat : ∀ id n, (id, n) ∈ a.liveNodes → n.op.hasInstr = true →
        ∃ (l : List (NodeId × ScheduledOp)) (e : NodeId × ScheduledOp)
          (r : List (NodeId × ScheduledOp)), s.ops = l ++ e :: r ∧
          EmittedFrom a (slotOrder a order) id n e.2 ∧
          ∀ x ∈ (if n.op.isRng then [e.2.output] else e.2.inputs),
            ParamSlot a s x ∨ ∃ w ∈ l.filterMap (fun e => instrOf e.2), w.dst = x := by
      intro id n hn hi
      have hp := Op.isParam_of_hasInstr hi
      obtain ⟨sop, he, hem, _⟩ := h.assigned.op_of_live h.scheduled hn hp
      obtain ⟨i, _, hi⟩ := h.mem_instrs he (hem.op_eq ▸ hi)
      obtain ⟨l, r, ho⟩ := List.append_of_mem he
      refine ⟨l, _, r, ho, hem, ?_⟩
      have hx := hreads _ i _ (h.split_of_ops ho hi)
      rwa [instrOf_reads hi (arity_of_emitted hv hem), hem.op_eq] at hx
    have hrng : ∀ id n, (id, n) ∈ a.liveNodes → n.op.isRng = false := by
      intro id n hn
      by_contra hr
      rw [Bool.not_eq_false] at hr
      obtain ⟨l, e, r, ho, hem, hx⟩ := hat id n hn (Op.hasInstr_of_isRng hr)
      rw [if_pos hr] at hx
      rcases hx _ (List.mem_singleton_self _) with hps | hw
      · have hout := (lookup_ok h.assigned.table).mpr hem.output
        rw [h.assigned.paramSlot_iff hn hout, hem.not_param] at hps
        cases hps
      · exact h.not_written_before ho hw
    refine ⟨fun id n hn hi v hv' p d hp hpi => ?_, hrng⟩
    obtain ⟨l, e, r, ho, hem, hx⟩ := hat id n hn hi
    rw [if_neg (by simp [hrng id n hn])] at hx
    obtain ⟨x, hxm, hxs, hxl⟩ := Schedule.mem_of_forall₂ hem.inputs.flip hv'
    exact (h.operand_iff ho hp (hpi ▸ hxs) hxl).mp (hx x hxm)
  · rintro ⟨hin, hrng⟩ l i r hi x hx
    obtain ⟨l', ⟨id, sop⟩, r', ho, hie, rfl⟩ := h.split hi
    obtain ⟨n, hem⟩ := h.assigned.emitted (id, sop) (by simp [ho])
    rw [instrOf_reads hie (arity_of_emitted hv hem), hem.op_eq, hrng id n hem.live,
      if_neg (by simp)] at hx
    obtain ⟨v, hvm, hxs, hxl⟩ := Schedule.mem_of_forall₂ hem.inputs hx
    obtain ⟨p, d, hp, hpi⟩ := live_of_slot h.scheduled hxs
    refine (h.operand_iff ho hp (hpi ▸ hxs) hxl).mpr ?_
    refine hin id n hem.live ?_ v hvm p d hp hpi
    rw [← hem.op_eq, ← instrOf_isSome, hie]
    rfl

theorem Compiled.results_iff (h : Compiled a roots order s tp) :
    (∀ x ∈ tp.results, ParamSlot a s x ∨ ∃ w ∈ tp.instrs, w.dst = x) ↔
      ∀ r ∈ roots, ∀ p d, (p, d) ∈ a.liveNodes → p.index = r.index → d.op.provides = true := by
  constructor
  · intro hres r hr p d hp hpi
    obtain ⟨x, hx, hrx⟩ := Schedule.mem_of_forall₂ h.results.flip hr
    rw [lookup_ok h.assigned.table, ← hpi] at hrx
    exact (h.result_iff hp hrx).mp (hres x hx)
  · intro hroots x hx
    obtain ⟨r, hr, hrx⟩ := Schedule.mem_of_forall₂ h.results hx
    rw [lookup_ok h.assigned.table] at hrx
    obtain ⟨p, d, hp, hpi⟩ := live_of_slot h.scheduled hrx
    exact (h.result_iff hp (hpi ▸ hrx)).mpr (hroots r hr p d hp hpi)

theorem Compiled.le_valueCount (h : Compiled a roots order s tp)
    (he : (id, sop) ∈ s.ops) : sop.output < tp.valueCount := by
  rw [h.valueCount]
  exact (foldl_max_output _ _).2 _ (List.mem_map.mpr ⟨_, he, rfl⟩)

/-- The last op's slot is the largest one, so a single op covers the table. -/
theorem Compiled.bounded_of_op (h : Compiled a roots order s tp) (hn : (id, n) ∈ a.liveNodes)
    (hp : n.op.isParam = false) (hx : s.lookup id' = .ok x) : x < tp.valueCount := by
  have hlt := h.assigned.lookup_lt hx
  obtain ⟨sop, he, _⟩ := h.assigned.op_of_live h.scheduled hn hp
  have hpos : 0 < s.ops.length := List.length_pos_of_mem he
  rw [h.assigned.length_ops] at hpos
  have hmem : (paramSlots a order).length + (opSlots a order).length - 1 ∈
      s.ops.map (·.2.output) := by
    rw [h.assigned.outputs, List.mem_range'_1]
    omega
  obtain ⟨⟨last, lsop⟩, hl, hout⟩ := List.mem_map.mp hmem
  have := h.le_valueCount hl
  simp only at hout
  omega

theorem Compiled.bounded_iff (h : Compiled a roots order s tp) :
    (∀ id n, (id, n) ∈ a.liveNodes → ∀ x, s.lookup id = .ok x → x < tp.valueCount) ↔
      (∃ id n, (id, n) ∈ a.liveNodes ∧ n.op.isParam = false) ∨
        paramCount a ≤ paramSpan a % 2 ^ 32 := by
  by_cases hop : ∃ id n, (id, n) ∈ a.liveNodes ∧ n.op.isParam = false
  · obtain ⟨id, n, hn, hp⟩ := hop
    exact iff_of_true (fun _ _ _ _ hx => h.bounded_of_op hn hp hx) (.inl ⟨id, n, hn, hp⟩)
  -- no op at all: the table is sized by the parameters alone
  have hnil : s.ops = [] := by
    rw [List.eq_nil_iff_forall_not_mem]
    rintro ⟨id, sop⟩ he
    obtain ⟨n, hem⟩ := h.assigned.emitted _ he
    exact hop ⟨id, n, hem.live, hem.not_param⟩
  have hcount : tp.valueCount = paramSpan a % 2 ^ 32 := by
    rw [h.valueCount, hnil]
    rfl
  have hops : (opSlots a order).length = 0 := by
    rw [← h.assigned.length_ops, hnil]
    rfl
  rw [or_iff_right hop, hcount, paramCount_eq h.scheduled]
  constructor
  · intro hb
    by_contra hlt
    rw [Nat.not_le] at hlt
    have hmem : (paramSlots a order).length - 1 < (slotOrder a order).length := by
      rw [slotOrder_length]
      omega
    obtain ⟨id, n, hn, hi⟩ := live_of_slot h.scheduled (List.getElem?_eq_getElem hmem)
    have := hb id n hn _ ((lookup_ok h.assigned.table).mpr
      (hi ▸ List.getElem?_eq_getElem hmem))
    omega
  · intro hle id n _ x hx
    have := h.assigned.lookup_lt hx
    omega

/-- Lowered programs read only written slots, exactly when no kept node and
no root uses a value that lowering drops, nothing is sampled, and the table
covers the parameters. -/
theorem slotSafe_iff {clusters : ClusterSet} (hv : verify a = .ok ())
    (hs : assignSlots a clusters = .ok s) (hp : projectWithFusion a roots clusters = .ok prog)
    (hl : lower prog = .ok tp) : SlotSafe a s tp ↔ Initialised a roots := by
  obtain ⟨order, _, h⟩ := compiled_of_ok hs hp hl
  constructor
  · intro hsafe
    obtain ⟨hin, hrng⟩ := (h.reads_iff hv).mp hsafe.reads
    exact ⟨hin, h.results_iff.mp hsafe.results, hrng, h.bounded_iff.mp hsafe.bounded⟩
  · intro hi
    exact
      { reads := (h.reads_iff hv).mpr ⟨hi.inputs, hi.no_rng⟩
        results := h.results_iff.mpr hi.roots
        bounded := h.bounded_iff.mpr hi.covered
        distinct := fun _ _ _ _ hn hn' _ hx hx' => (h.assigned.slot_unique hn hn' hx hx').1 }

theorem slotSafe_iff_negatedConst :
    ∃ s prog tp, assignSlots negatedConst .empty = .ok s ∧
      projectWithFusion negatedConst [.pack 1 0 .graph] .empty = .ok prog ∧
      lower prog = .ok tp ∧ SlotSafe negatedConst s tp := by
  obtain ⟨s, prog, tp, hs, hp, hl⟩ :=
    exists_compiled (a := negatedConst) (r := [.pack 1 0 .graph]) (c := .empty) (by decide)
  refine ⟨s, prog, tp, hs, hp, hl, (slotSafe_iff (by decide) hs hp hl).mpr ?_⟩
  have hall : ∀ e ∈ negatedConst.liveNodes, e.2.op.provides = true ∧ e.2.op.isRng = false ∧
      e.2.op.isParam = false := by decide
  exact
    { inputs := fun _ _ _ _ _ _ _ _ hp _ => (hall _ hp).1
      roots := fun _ _ _ _ hp _ => (hall _ hp).1
      no_rng := fun _ _ hn => (hall _ hn).2.1
      covered := .inl ⟨.pack 0 0 .graph, _, List.mem_cons_self, rfl⟩ }

/-- A multiply-accumulate of three constants. -/
def fusedMma : IrArena := .built do
  let a := IrArena.withCapacity 16 4
  let (x, a) ← a.insertNode a.rootRegion (.new (.constF64 ⟨0⟩) a.rootRegion [] (.scalar .f64))
  let (y, a) ← a.insertNode a.rootRegion (.new (.constF64 ⟨1⟩) a.rootRegion [] (.scalar .f64))
  let (z, a) ← a.insertNode a.rootRegion (.new (.constF64 ⟨2⟩) a.rootRegion [] (.scalar .f64))
  let inputs ← [x, y, z].mapM (a.valueOf · 0)
  let (_, a) ← a.insertNode a.rootRegion (.new .targetMma a.rootRegion inputs (.scalar .f64))
  return a

theorem fusedMma_not_slotSafe :
    verify fusedMma = .ok () ∧ .pack 3 0 .target ∈ fusedMma.liveIds ∧
      ∃ s prog tp, assignSlots fusedMma .empty = .ok s ∧
      projectWithFusion fusedMma [.pack 3 0 .target] .empty = .ok prog ∧
      lower prog = .ok tp ∧ ¬ SlotSafe fusedMma s tp := by
  obtain ⟨s, prog, tp, hs, hp, hl⟩ :=
    exists_compiled (a := fusedMma) (r := [.pack 3 0 .target]) (c := .empty) (by decide)
  refine ⟨by decide, by decide, s, prog, tp, hs, hp, hl, fun hsafe => ?_⟩
  obtain ⟨order, _, h⟩ := compiled_of_ok hs hp hl
  have hroot : ∃ e ∈ fusedMma.liveNodes, e.1.index = 3 ∧ e.2.op.provides = false := by decide
  obtain ⟨⟨id, n⟩, hn, hi, hdropped⟩ := hroot
  rw [h.results_iff.mp hsafe.results _ (List.mem_singleton_self _) id n hn hi] at hdropped
  cases hdropped

end Sxla
