import Sxla.Levels.Level1
import Sxla.Runtime.Interp

/-!
# What layout inference keeps, and when it is done

The checks of `verify` and the instructions of a target program do not look
at layouts, so a run of the pass keeps both. One run reaches the fixpoint
exactly when no node takes its layout from a later slot that the run turns.
-/

namespace Sxla

open Checked IrArena Verifier

-- ---------------------------------------------------------------------------
-- The turned arena
-- ---------------------------------------------------------------------------

namespace Node

variable {n : Node} {layout : Layout}

@[simp] theorem withLayout_region : (n.withLayout layout).region = n.region := by
  unfold withLayout
  split <;> rfl

@[simp] theorem withLayout_nextInRegion :
    (n.withLayout layout).nextInRegion = n.nextInRegion := by
  unfold withLayout
  split <;> rfl

@[simp] theorem withLayout_inputs : (n.withLayout layout).inputs = n.inputs := by
  unfold withLayout
  split <;> rfl

@[simp] theorem withLayout_effectIn : (n.withLayout layout).effectIn = n.effectIn := by
  unfold withLayout
  split <;> rfl

@[simp] theorem withLayout_elemOf : elemOf (n.withLayout layout).ty = elemOf n.ty := by
  unfold withLayout
  split
  · next t ht =>
    rw [ht]
    rfl
  · rfl

theorem withLayout_ty_eq (h : (n.withLayout layout).ty = .none ∨ (n.withLayout layout).ty = .token) :
    n.ty = .none ∨ n.ty = .token := by
  unfold withLayout at h
  split at h
  · rcases h with h | h
    · cases h
    · cases h
  · exact h

end Node

namespace Level1

variable {a : IrArena} {id x : NodeId} {n n' : Node} {i j : Nat} {layout : Layout}
  {cols : List Nat}

theorem turn_sameTree : SameTree a (turn a cols) := ⟨rfl, rfl⟩

/-- A node of the turned arena is the old one up to its layout. -/
theorem turn_node (h : a.node x = .ok n) : ∃ m, (turn a cols).node x = .ok m ∧
    (m = n ∨ m = n.withLayout .colMajor) := by
  rw [turn, mapSlots_node, h]
  refine ⟨_, rfl, ?_⟩
  split
  · exact .inr rfl
  · exact .inl rfl

theorem turn_node_error {e : ArenaError} (h : a.node x = .error e) :
    (turn a cols).node x = .error e := by
  rw [turn, mapSlots_node, h]
  rfl

theorem mem_turn_liveNodes : (id, n') ∈ (turn a cols).liveNodes ↔
    ∃ n, (id, n) ∈ a.liveNodes ∧
      (if id.index ∈ cols then n.withLayout .colMajor else n) = n' :=
  mem_mapSlots_liveNodes fun _ => Node.withLayout_op

theorem turn_liveIds : (turn a cols).liveIds = a.liveIds := by
  unfold liveIds liveNodes
  rw [turn, mapSlots_liveSlots, List.map_filterMap, List.map_filterMap]
  refine List.filterMap_congr fun i _ => ?_
  rw [mapSlots_slots]
  cases a.slots[i]? with
  | none => rfl
  | some s =>
    simp only [Option.map_some]
    split
    · rw [Node.withLayout_op]
    · rfl

-- ---------------------------------------------------------------------------
-- The verifier
-- ---------------------------------------------------------------------------

theorem effectAhead_turn {fuel : Nat} :
    effectAhead (turn a cols) id fuel x = effectAhead a id fuel x := by
  refine effectAhead_congr fun y => ?_
  cases hy : a.node y with
  | error e => rw [turn_node_error hy]
  | ok n =>
    obtain ⟨m, hm, rfl | rfl⟩ := @turn_node a y n cols hy
    · rw [hm]
    · rw [hm]
      simp [Except.map]

theorem regionHasEarlierEffect_turn {rid : RegionId} :
    regionHasEarlierEffect (turn a cols) rid id = regionHasEarlierEffect a rid id := by
  have hcount : (turn a cols).nodeCount = a.nodeCount := by
    simp [nodeCount, turn, mapSlots]
  have hregion : (turn a cols).region rid = a.region rid := rfl
  unfold regionHasEarlierEffect
  simp only [hregion, hcount, effectAhead_turn]

theorem ownerOk_turn {r : Region} (h : ownerOk a r = true) : ownerOk (turn a cols) r = true := by
  unfold ownerOk at h ⊢
  cases hn : a.node r.owner with
  | error e =>
    rw [hn] at h
    cases h
  | ok n =>
    rw [hn] at h
    obtain ⟨m, hm, rfl | rfl⟩ := @turn_node a _ n cols hn
    · rw [hm]
      exact h
    · rw [hm]
      simpa using h

theorem nodeOk_turn (h : NodeOk a id n) (hn : n' = n ∨ n' = n.withLayout .colMajor) :
    NodeOk (turn a cols) id n' := by
  have hop : n'.op = n.op := by rcases hn with rfl | rfl <;> simp
  have hregion : n'.region = n.region := by rcases hn with rfl | rfl <;> simp
  have hinputs : n'.inputs = n.inputs := by rcases hn with rfl | rfl <;> simp
  have helem : elemOf n'.ty = elemOf n.ty := by rcases hn with rfl | rfl <;> simp
  have heffect : n'.effectIn = n.effectIn := by rcases hn with rfl | rfl <;> simp
  refine
    { owns := fun ho => ?_
      region := ?_
      arity := ?_
      ty := fun hp => ?_
      inputs := fun v hv => ?_
      effect := fun he hnone => ?_ }
  · rw [ownedCount_congr turn_sameTree]
    exact h.owns (hop ▸ ho)
  · rw [hregion]
    exact h.region
  · rw [hinputs, hop]
    exact h.arity
  · rw [hop] at hp
    rcases hn with rfl | rfl
    · exact h.ty hp
    · exact ⟨fun hty => (Node.withLayout_ty_eq (.inl hty)).elim (h.ty hp).1 (h.ty hp).2,
        fun hty => (Node.withLayout_ty_eq (.inr hty)).elim (h.ty hp).1 (h.ty hp).2⟩
  · rw [Node.valueInputs, hinputs] at hv
    obtain ⟨d, hd⟩ := h.inputs v hv
    obtain ⟨m, hm, hmd⟩ := @turn_node a _ d cols hd.def_eq
    have hmregion : m.region = d.region := by rcases hmd with rfl | rfl <;> simp
    have hmelem : elemOf m.ty = elemOf d.ty := by rcases hmd with rfl | rfl <;> simp
    refine ⟨m, hd.not_none, hm, hd.slot_eq, ?_, ?_⟩
    · have hclaims := hd.elem
      unfold claimsIntegerElement operandElemIsFloat at hclaims ⊢
      rw [hop, helem, hmelem]
      exact hclaims
    · rw [regionDominates_congr turn_sameTree, hmregion, hregion]
      exact hd.dominates
  · rw [hregion, regionHasEarlierEffect_turn]
    exact h.effect (hop ▸ he) (heffect ▸ hnone)

theorem verify_turn (h : verify a = .ok ()) : verify (turn a cols) = .ok () := by
  obtain ⟨htree, howners, hnodes⟩ := verify_ok.mp h
  refine verify_ok.mpr ⟨(regionTreeOk_congr turn_sameTree).trans htree, fun r hr => ?_,
    fun id n' hn' => ?_⟩
  · exact (howners r hr).imp_right ownerOk_turn
  · obtain ⟨n, hn, hcol⟩ := mem_turn_liveNodes.mp hn'
    refine nodeOk_turn (hnodes id n hn) ?_
    split at hcol
    · exact .inr hcol.symm
    · exact .inl hcol.symm

end Level1

-- ---------------------------------------------------------------------------
-- The target program
-- ---------------------------------------------------------------------------

namespace Level1

open Schedule

variable {a : IrArena} {id : NodeId} {cols : List Nat} {clusters : ClusterSet}

theorem nodeProducers_turn : nodeProducers (turn a cols) id = nodeProducers a id := by
  have hpos : producerPos (turn a cols) = producerPos a := by
    funext v
    rw [producerPos, producerPos, posOf, posOf, turn_liveIds]
  unfold nodeProducers
  rw [hpos]
  cases hn : a.node id with
  | error e => simp only [turn_node_error hn]
  | ok n =>
    obtain ⟨m, hm, rfl | rfl⟩ := @turn_node a _ n cols hn
    · simp only [hm]
    · simp only [hm, Node.withLayout_valueInputs]

theorem producers_turn : producers (turn a cols) = producers a := by
  rw [producers, producers, turn_liveIds]
  exact congrArg (fun f => a.liveIds.mapM f) (funext fun _ => nodeProducers_turn)

theorem idAt_turn : idAt (turn a cols) = idAt a := by
  funext pos
  rw [idAt, idAt, turn_liveIds]

theorem steps_turn {table : List (List Nat)} {clusterOf : NodeId → Option UInt32} {fuel : Nat}
    {active : Option UInt32} {s : Kahn.State} :
    steps (turn a cols) table clusterOf fuel active s = steps a table clusterOf fuel active s := by
  have hkey : ∀ active, key (turn a cols) clusterOf active = key a clusterOf active := by
    intro active
    funext pos
    rw [key, key, idAt_turn]
  induction fuel generalizing active s with
  | zero => unfold steps; rfl
  | succ fuel ih =>
    unfold steps
    simp only [hkey, idAt_turn, ih]

theorem projectionOrder_turn : projectionOrder (turn a cols) clusters =
    projectionOrder a clusters := by
  unfold projectionOrder schedule scheduleFused
  simp only [producers_turn, idAt_turn, steps_turn]

end Level1

namespace Projection

/-- What instructions are made of: everything but the types. -/
def untyped (s : Projection) : List (Option Nat) × Nat × Nat × List (NodeId × ScheduledOp) :=
  (s.slotOf, s.nextSlot, s.params.length, s.ops.map fun x => (x.1, { x.2 with ty := .none }))

variable {a : IrArena} {id : NodeId} {s s' : Projection} {cols : List Nat}
  {cluster : NodeId → Option UInt32}

theorem setParam_length {params : List Ty} {idx : Nat} {ty : Ty} :
    (setParam params idx ty).length = params.length + (idx + 1 - params.length) := by
  rw [setParam, List.length_set, List.length_append, List.length_replicate]

theorem untyped_iff : s.untyped = s'.untyped ↔ s.slotOf = s'.slotOf ∧
    s.nextSlot = s'.nextSlot ∧ s.params.length = s'.params.length ∧
    (s.ops.map fun x => (x.1, { x.2 with ty := Ty.none })) =
      s'.ops.map fun x => (x.1, { x.2 with ty := Ty.none }) := by
  simp only [untyped, Prod.mk.injEq]

theorem bindParam_turn (h : s.untyped = s'.untyped) :
    (bindParam (Level1.turn a cols) s id).map untyped = (bindParam a s' id).map untyped := by
  obtain ⟨hslot, hnext, hlen, hops⟩ := untyped_iff.mp h
  unfold bindParam nodeOf
  cases hn : a.node id with
  | error e =>
    simp only [Level1.turn_node_error hn]
    rfl
  | ok n =>
    obtain ⟨m, hm, hmn⟩ := @Level1.turn_node a _ n cols hn
    have hop : m.op = n.op := by rcases hmn with rfl | rfl <;> simp
    simp only [hm, bind, Except.bind, hop]
    cases n.op with
    | param index =>
      refine congrArg Except.ok (untyped_iff.mpr ⟨?_, ?_, ?_, hops⟩)
      · simp only [assignSlot, hslot, hnext]
      · simp only [assignSlot, hnext]
      · simp only [setParam_length, hlen]
    | _ => exact congrArg Except.ok h

theorem emitOp_turn (h : s.untyped = s'.untyped) :
    (emitOp (Level1.turn a cols) cluster s id).map untyped =
      (emitOp a cluster s' id).map untyped := by
  obtain ⟨hslot, hnext, hlen, hops⟩ := untyped_iff.mp h
  have hlookup : s.lookup = s'.lookup := by
    funext x
    rw [lookup, lookup, hslot]
  unfold emitOp nodeOf
  cases hn : a.node id with
  | error e =>
    simp only [Level1.turn_node_error hn]
    rfl
  | ok n =>
    obtain ⟨m, hm, hmn⟩ := @Level1.turn_node a _ n cols hn
    have hop : m.op = n.op := by rcases hmn with rfl | rfl <;> simp
    have hcount : m.nInputs = n.nInputs := by
      rcases hmn with rfl | rfl
      · rfl
      · rw [Node.nInputs, Node.withLayout_inputs, Node.nInputs]
    have hvalues : m.valueInputs = n.valueInputs := by rcases hmn with rfl | rfl <;> simp
    simp only [hm, bind, Except.bind, hop, hcount, hvalues, hlookup]
    cases n.op with
    | param index => exact congrArg Except.ok h
    | _ =>
      dsimp only
      split
      · rfl
      · cases n.valueInputs.mapM fun v => s'.lookup v.node with
        | error e => rfl
        | ok inputs =>
          refine congrArg Except.ok (untyped_iff.mpr ⟨?_, ?_, hlen, ?_⟩)
          · simp only [assignSlot, hslot, hnext]
          · simp only [assignSlot, hnext]
          · simp only [List.map_append, hops, hnext, List.map_cons, List.map_nil]

end Projection

namespace Level1

variable {a : IrArena} {cols : List Nat} {clusters : ClusterSet} {roots : List NodeId}

theorem assignSlots_turn : (assignSlots (turn a cols) clusters).map Projection.untyped =
    (assignSlots a clusters).map Projection.untyped := by
  have hstart : Projection.start (turn a cols) = Projection.start a := by
    simp [Projection.start, slotCount, turn, mapSlots]
  unfold assignSlots
  rw [projectionOrder_turn, hstart]
  cases projectionOrder a clusters with
  | error e => rfl
  | ok order =>
    have hparams := foldlM_map_congr (l := order)
      (fun s s' x => @Projection.bindParam_turn a x s s' cols) (Eq.refl (Projection.start a).untyped)
    simp only [bind, Except.bind]
    cases hs : order.foldlM (Projection.bindParam (turn a cols)) (Projection.start a) with
    | error e =>
      rw [hs] at hparams
      cases hs' : order.foldlM (Projection.bindParam a) (Projection.start a) with
      | error e' =>
        rw [hs'] at hparams
        cases hparams
        rfl
      | ok s' =>
        rw [hs'] at hparams
        cases hparams
    | ok s =>
      rw [hs] at hparams
      cases hs' : order.foldlM (Projection.bindParam a) (Projection.start a) with
      | error e' =>
        rw [hs'] at hparams
        cases hparams
      | ok s' =>
        rw [hs'] at hparams
        refine foldlM_map_congr (fun s s' x h => ?_) (Except.ok.inj hparams)
        exact Projection.emitOp_turn h

/-- Lowering does not look at the type of an op. -/
theorem lower_congr {p q : LoopProgram} (hops : (p.ops.map fun op => { op with ty := Ty.none }) =
      q.ops.map fun op => { op with ty := Ty.none })
    (hresults : p.results = q.results) (hparams : p.params.length = q.params.length) :
    lower p = lower q := by
  have hinstrs : ∀ ops : List ScheduledOp,
      ops.mapM lowerOp = (ops.map fun op => { op with ty := Ty.none }).mapM lowerOp := by
    intro ops
    rw [List.mapM_map]
    rfl
  have hcount : ∀ (ops : List ScheduledOp) (m : Nat),
      ops.foldl (fun m op => max m (op.output + 1)) m =
        (ops.map fun op => { op with ty := Ty.none }).foldl
          (fun m op => max m (op.output + 1)) m := by
    intro ops m
    rw [List.foldl_map]
  unfold lower LoopProgram.valueCount
  rw [hinstrs, hcount, hops, ← hinstrs, ← hcount, hresults, hparams]

theorem lower_turn : (projectWithFusion (turn a cols) roots clusters).map lower =
    (projectWithFusion a roots clusters).map lower := by
  have hslots := @assignSlots_turn a cols clusters
  unfold projectWithFusion
  simp only [bind, Except.bind]
  cases hs : assignSlots (turn a cols) clusters with
  | error e =>
    rw [hs] at hslots
    cases hs' : assignSlots a clusters with
    | error e' =>
      rw [hs'] at hslots
      cases hslots
      rfl
    | ok s' =>
      rw [hs'] at hslots
      cases hslots
  | ok s =>
    rw [hs] at hslots
    cases hs' : assignSlots a clusters with
    | error e' =>
      rw [hs'] at hslots
      cases hslots
    | ok s' =>
      rw [hs'] at hslots
      obtain ⟨hslot, -, hlen, hops⟩ := Projection.untyped_iff.mp (Except.ok.inj hslots)
      have hlookup : s.lookup = s'.lookup := by
        funext x
        rw [Projection.lookup, Projection.lookup, hslot]
      simp only [hlookup]
      cases roots.mapM s'.lookup with
      | error e => rfl
      | ok results =>
        refine congrArg Except.ok (lower_congr ?_ rfl hlen)
        have hsnd := congrArg (List.map (·.2)) hops
        simp only [List.map_map] at hsnd ⊢
        exact hsnd

-- ---------------------------------------------------------------------------
-- The second run
-- ---------------------------------------------------------------------------

variable {id : NodeId} {n : Node} {i j : Nat} {layout : Layout}

/-- A node never takes its layout from a later slot that the run turns. -/
def InSlotOrder (a : IrArena) : Prop :=
  ∀ id n j layout, (id, n) ∈ a.liveNodes → n.ty.tensorLayout = some .rowMajor →
    inherits n.op = true → firstTensor a n = some (j, layout) → Turned a j → j ≤ id.index

theorem firstTensor_slot (h : firstTensor a n = some (j, layout)) :
    ∃ s, a.slots[j]? = some s ∧ s.node.ty.tensorLayout = some layout := by
  obtain ⟨v, -, hv⟩ := List.exists_of_findSome?_eq_some h
  split at hv
  · next prod hprod =>
    obtain ⟨l, hl, heq⟩ := Option.map_eq_some_iff.mp hv
    cases heq
    exact ⟨_, slot_of_node hprod, hl⟩
  · cases hv

/-- A row-major node of the turned arena was not turned. -/
theorem not_turned_of_rowMajor (hcols : ∀ i, i ∈ cols ↔ Turned a i)
    (hn : (id, n) ∈ (turn a cols).liveNodes) (hty : n.ty.tensorLayout = some .rowMajor) :
    (id, n) ∈ a.liveNodes ∧ ¬ Turned a id.index := by
  obtain ⟨m, hm, hmn⟩ := mem_turn_liveNodes.mp hn
  by_cases hid : id.index ∈ cols
  · rw [if_pos hid] at hmn
    rw [← hmn, Node.withLayout_tensorLayout] at hty
    obtain ⟨l, -, hl⟩ := Option.map_eq_some_iff.mp hty
    cases hl
  · rw [if_neg hid] at hmn
    exact ⟨hmn ▸ hm, fun h => hid ((hcols _).mpr h)⟩

/-- What a second run would turn comes from a node out of slot order. -/
theorem not_inSlotOrder_of_turned (hcols : ∀ i, i ∈ cols ↔ Turned a i)
    (h : Turned (turn a cols) i) : ¬ InSlotOrder a := by
  induction h with
  | transpose hn hty hop =>
    obtain ⟨hn, hnot⟩ := not_turned_of_rowMajor hcols hn hty
    exact absurd ((turned_transpose hn hop).mpr hty) hnot
  | @source id n j hn hty hop hfirst =>
    obtain ⟨hn, hnot⟩ := not_turned_of_rowMajor hcols hn hty
    intro horder
    rw [firstTensor_turn rfl] at hfirst
    obtain ⟨⟨k, layout⟩, hk, heq⟩ := Option.map_eq_some_iff.mp hfirst
    obtain ⟨rfl, hcol⟩ := Prod.mk.inj heq
    dsimp only at hcol
    by_cases hkc : k ∈ cols
    · have hturned := (hcols k).mp hkc
      rcases (horder id n k layout hn hty hop hk hturned).lt_or_eq with hlt | heq
      · exact hnot (.chain hn hty hop hk hlt hturned)
      · exact hnot (heq ▸ hturned)
    · rw [if_neg hkc] at hcol
      subst hcol
      exact hnot (.source hn hty hop hk)
  | chain _ _ _ _ _ _ ih => exact ih

/-- A node out of slot order is turned by a second run. -/
theorem inSlotOrder_of_not_turned (hcols : ∀ i, i ∈ cols ↔ Turned a i)
    (h : ∀ i, ¬ Turned (turn a cols) i) : InSlotOrder a := by
  intro id n j layout hn hty hop hfirst hj
  by_contra hlt
  have hlater : id.index < j := Nat.lt_of_not_le hlt
  have hrow : layout = .rowMajor := by
    obtain ⟨s, hs, hl⟩ := firstTensor_slot hfirst
    obtain ⟨id', n', hn', rfl, hrow⟩ := hj.live
    obtain ⟨-, g, hs', -⟩ := mem_liveNodes.mp hn'
    cases Option.some.inj (hs.symm.trans hs')
    exact Option.some.inj (hl.symm.trans hrow)
  have hnot : ¬ Turned a id.index := by
    intro hturned
    obtain ⟨-, k, l, hk, hcases⟩ := (turned_inherits hn hop).mp hturned
    cases Option.some.inj (hfirst.symm.trans hk)
    rcases hcases with hcol | ⟨hjlt, -⟩
    · rw [hrow] at hcol
      cases hcol
    · exact absurd hjlt hlater.not_gt
  have hid : id.index ∉ cols := fun hmem => hnot ((hcols _).mp hmem)
  refine h id.index (@Turned.source (turn a cols) id n j ?_ hty hop ?_)
  · exact mem_turn_liveNodes.mpr ⟨n, hn, if_neg hid⟩
  · rw [firstTensor_turn rfl, hfirst, Option.map_some, if_pos ((hcols j).mpr hj)]

end Level1

open Level1

-- ---------------------------------------------------------------------------
-- The property
-- ---------------------------------------------------------------------------

/-- The two arenas differ in the layouts of tensor types that were row-major. -/
structure OnlyLayouts (a b : IrArena) : Prop where
  rest : b = { a with slots := b.slots }
  length : b.slots.length = a.slots.length
  slots : ∀ (i : Nat) (s : NodeSlot), a.slots[i]? = some s → b.slots[i]? = some s ∨
    s.node.ty.tensorLayout = some .rowMajor ∧
      b.slots[i]? = some ⟨s.node.withLayout .colMajor, s.generation⟩

/-- The arena lowered and run, with the errors of the stages. -/
def lowerAndRun (libm : Libm) (a : IrArena) (roots : List NodeId) (clusters : ClusterSet)
    (args : List Value) : Except LowerError (Except TargetError (Run (List Value))) :=
  (projectWithFusion a roots clusters).map fun prog =>
    (lower prog).map fun target => execute libm target args

structure LayoutsInferred (a : IrArena) : Prop where
  onlyLayouts : OnlyLayouts a (layoutInfer a).1
  verified : verify (layoutInfer a).1 = .ok ()
  executes : ∀ libm roots clusters args,
    lowerAndRun libm (layoutInfer a).1 roots clusters args = lowerAndRun libm a roots clusters args
  fixpoint : layoutInfer (layoutInfer a).1 = ((layoutInfer a).1, 0)

variable {a : IrArena}

theorem onlyLayouts_turn {cols : List Nat} (hcols : ∀ i, i ∈ cols ↔ Turned a i) :
    OnlyLayouts a (turn a cols) := by
  refine ⟨rfl, List.length_mapIdx, fun i s hs => ?_⟩
  rw [turn, mapSlots_slots, hs, Option.map_some]
  by_cases hi : i ∈ cols
  · obtain ⟨id, n, hn, rfl, hty⟩ := ((hcols i).mp hi).live
    obtain ⟨-, g, hs', -⟩ := mem_liveNodes.mp hn
    cases Option.some.inj (hs.symm.trans hs')
    rw [if_pos hi]
    exact .inr ⟨hty, rfl⟩
  · rw [if_neg hi]
    exact .inl rfl

theorem fixpoint_iff : layoutInfer (layoutInfer a).1 = ((layoutInfer a).1, 0) ↔
    InSlotOrder a := by
  obtain ⟨cols, heq, hcols⟩ := layoutInfer_eq a
  obtain ⟨cols', heq', hcols'⟩ := layoutInfer_eq (turn a cols)
  rw [heq, heq']
  constructor
  · intro h
    have hnil : cols' = [] := List.eq_nil_of_length_eq_zero (congrArg Prod.snd h)
    refine inSlotOrder_of_not_turned hcols fun i hi => ?_
    rw [← hcols', hnil] at hi
    cases hi
  · intro h
    have hnil : cols' = [] := by
      refine List.eq_nil_iff_forall_not_mem.mpr fun i hi => ?_
      exact not_inSlotOrder_of_turned hcols ((hcols' i).mp hi) h
    rw [hnil, turn, mapSlots_nil]
    rfl

theorem lowerAndRun_eq {libm : Libm} {roots : List NodeId} {clusters : ClusterSet}
    {args : List Value} : lowerAndRun libm a roots clusters args =
      ((projectWithFusion a roots clusters).map lower).map
        (Except.map fun target => execute libm target args) := by
  unfold lowerAndRun
  cases projectWithFusion a roots clusters <;> rfl

theorem layoutInfer_executes {libm : Libm} {roots : List NodeId} {clusters : ClusterSet}
    {args : List Value} : lowerAndRun libm (layoutInfer a).1 roots clusters args =
      lowerAndRun libm a roots clusters args := by
  obtain ⟨cols, heq, -⟩ := layoutInfer_eq a
  rw [heq, lowerAndRun_eq, lowerAndRun_eq, lower_turn]

/-- One run keeps the checks and the programs of the arena, and is the last
one that changes it exactly when layouts flow in slot order. -/
theorem layoutsInferred_iff (hv : verify a = .ok ()) : LayoutsInferred a ↔ InSlotOrder a := by
  refine ⟨fun h => fixpoint_iff.mp h.fixpoint, fun h => ?_⟩
  obtain ⟨cols, heq, hcols⟩ := layoutInfer_eq a
  refine ⟨?_, ?_, fun _ _ _ _ => layoutInfer_executes, fixpoint_iff.mpr h⟩
  · rw [heq]
    exact onlyLayouts_turn hcols
  · rw [heq]
    exact verify_turn hv

def squareF64 : Ty := .tensor ⟨.f64, ⟨[5, 5], by decide, by decide, by decide⟩, .rowMajor⟩

/-- `neg (transpose p)`, with the negation in the slot behind its operand or,
after the slot of a removed constant is reused, ahead of it. -/
def negatedTranspose (reuse : Bool) : IrArena := .built do
  let a := IrArena.withCapacity 8 1
  let (p, a) ← a.insertNode a.rootRegion (.new (.param 0) a.rootRegion [] squareF64)
  let (c, a) ← a.insertNode a.rootRegion (.new (.constI64 0) a.rootRegion [] (.scalar .i64))
  let (t, a) ← a.insertNode a.rootRegion
    (.new (.transpose [1, 0, 0, 0] 2) a.rootRegion [.fromNode p 0] squareF64)
  let a ← if reuse then a.removeNode c else return a
  let (_, a) ← a.insertNode a.rootRegion
    (.new (.unary .neg) a.rootRegion [.fromNode t 0] squareF64)
  return a

theorem layoutsInferred_iff_negatedTranspose :
    LayoutsInferred (negatedTranspose false) ↔ InSlotOrder (negatedTranspose false) :=
  layoutsInferred_iff rfl

/-- The second run changes the negation. -/
theorem negatedTranspose_not_layoutsInferred :
    verify (negatedTranspose true) = .ok () ∧
      (layoutInfer (layoutInfer (negatedTranspose true)).1).2 = 1 ∧
      ¬ LayoutsInferred (negatedTranspose true) := by
  have hsecond : (layoutInfer (layoutInfer (negatedTranspose true)).1).2 = 1 := rfl
  refine ⟨by decide +kernel, hsecond, fun h => ?_⟩
  rw [h.fixpoint] at hsecond
  cases hsecond

end Sxla
