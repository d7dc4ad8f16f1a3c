import Sxla.Graph.EffectOrder
import Sxla.Levels.SlotSafety
import Sxla.Runtime.Interp

/-!
# Which argument a parameter's slot holds

The executor fills the table by position: slot `x` starts out with argument
`x`. The projection hands out the leading slots in the order the scheduler
emits the parameters, whatever their indices are. So a parameter is bound to
its own argument exactly when its index is its place in that order: for the
plain schedule its place among the live parameters in slot order, and for
every clustering only when it is parameter 0 and the only one
(`bindsParams_iff`).
-/

namespace Sxla

open Checked Projection DepOrder Interp Relation

variable {a : IrArena} {id : NodeId} {n : Node} {order : List NodeId} {s : Projection}
  {prog : LoopProgram} {tp : TargetProgram} {roots : List NodeId} {clusters : ClusterSet}
  {k : UInt32} {x : Nat}

/-- The live parameters, in slot order. -/
def liveParams (a : IrArena) : List NodeId := a.liveIds.filter (isParam a)

/-- A root or an operand of a kept op names the node. -/
def IsRead (a : IrArena) (roots : List NodeId) (id : NodeId) : Prop :=
  (∃ r ∈ roots, r.index = id.index) ∨
    ∃ c m, (c, m) ∈ a.liveNodes ∧ m.op.hasInstr = true ∧ ∃ v ∈ m.valueInputs, v.node.index = id.index

/-- More arguments than every parameter's index. -/
def Covers (a : IrArena) (args : List Value) : Prop :=
  ∀ id n k, (id, n) ∈ a.liveNodes → n.op = .param k → k.toNat < args.length

/-- Every slot of a parameter that is read starts out with its argument. -/
def ParamsBound (a : IrArena) (s : Projection) (tp : TargetProgram) : Prop :=
  ∀ id n k x, (id, n) ∈ a.liveNodes → n.op = .param k → s.lookup id = .ok x →
    (x ∈ tp.results ∨ ∃ i ∈ tp.instrs, x ∈ i.reads) →
      ∀ args, Covers a args → (initialTable tp args)[x]? = args[k.toNat]?

/-- Whatever the arena is compiled to binds its parameters. -/
def BindsParams (a : IrArena) (roots : List NodeId) (clusters : ClusterSet) : Prop :=
  ∀ s prog tp, assignSlots a clusters = .ok s → projectWithFusion a roots clusters = .ok prog →
    lower prog = .ok tp → ParamsBound a s tp

def Op.refused : Op → Bool
  | .ifOp | .custom _ => true
  | _ => false

/-- Projection and lowering go through. -/
structure Lowerable (a : IrArena) (roots : List NodeId) : Prop where
  inputs : InputsLive a
  acyclic : ValueAcyclic a
  ops : ∀ id n, (id, n) ∈ a.liveNodes → n.op.refused = false
  roots : ∀ r ∈ roots, r.index ∈ a.liveSlots

-- ---------------------------------------------------------------------------
-- When there is a program
-- ---------------------------------------------------------------------------

theorem lowerOp_isOk {sop : ScheduledOp} : (∃ i, lowerOp sop = .ok i) ↔ sop.op.refused = false := by
  unfold lowerOp
  cases sop.op <;> simp [Op.refused]

theorem lookup_isOk (h : Assigned a order s) (hs : Scheduled a order) :
    (∃ x, s.lookup id = .ok x) ↔ id.index ∈ a.liveSlots := by
  rw [← (slotOrder_perm hs).mem_iff, List.mem_iff_getElem?]
  exact exists_congr fun x => lookup_ok h.table

theorem lower_isOk : (∃ tp, lower prog = .ok tp) ↔ ∀ sop ∈ prog.ops, sop.op.refused = false := by
  simp only [← lowerOp_isOk, ← mapM_isOk]
  constructor
  · rintro ⟨tp, h⟩
    simp only [lower, bind_ok] at h
    obtain ⟨l, hl, _⟩ := h
    exact ⟨l, hl⟩
  · rintro ⟨l, hl⟩
    exact ⟨_, bind_ok.mpr ⟨l, hl, rfl⟩⟩

theorem lowerable_of_ok (hs : assignSlots a clusters = .ok s)
    (hp : projectWithFusion a roots clusters = .ok prog) (hl : lower prog = .ok tp) :
    Lowerable a roots := by
  obtain ⟨order, _, h⟩ := compiled_of_ok hs hp hl
  refine ⟨h.scheduled.inputsLive, h.scheduled.acyclic, fun id n hn => ?_, fun r hr => ?_⟩
  · cases hpar : n.op.isParam with
    | true =>
      obtain ⟨k, hk⟩ := Op.isParam_iff.mp hpar
      rw [hk]
      rfl
    | false =>
      obtain ⟨sop, he, hem, _⟩ := h.assigned.op_of_live h.scheduled hn hpar
      obtain ⟨_, hops, _⟩ := projectWithFusion_ok hs hp
      rw [← hem.op_eq]
      exact lower_isOk.mp ⟨tp, hl⟩ sop (hops ▸ List.mem_map.mpr ⟨_, he, rfl⟩)
  · obtain ⟨x, _, hx⟩ := Schedule.mem_of_forall₂ h.results.flip hr
    exact (lookup_isOk h.assigned h.scheduled).mp ⟨x, hx⟩

theorem projection_total (hv : verify a = .ok ()) (ho : projectionOrder a clusters = .ok order)
    (hroots : ∀ r ∈ roots, r.index ∈ a.liveSlots) :
    ∃ s prog, assignSlots a clusters = .ok s ∧
      projectWithFusion a roots clusters = .ok prog := by
  obtain ⟨s, hs⟩ := assignSlots_total ho fun id n hn => by
    rw [Node.nInputs, ((verify_ok.mp hv).2.2 id n hn).arity]
    exact Verifier.expectedArity_le _
  obtain ⟨order', ho', hassigned⟩ := assignSlots_ok hs
  rw [ho, Except.ok.injEq] at ho'
  subst ho'
  obtain ⟨results, hr⟩ := mapM_isOk.mpr fun r hr =>
    (lookup_isOk hassigned (projectionOrder_scheduled ho)).mpr (hroots r hr)
  exact ⟨s, _, hs, bind_ok.mpr ⟨s, hs, bind_ok.mpr ⟨results, hr, rfl⟩⟩⟩

/-- Whatever a projection lists comes from a live node. -/
theorem ops_live (hs : assignSlots a clusters = .ok s)
    (hp : projectWithFusion a roots clusters = .ok prog) {sop : ScheduledOp}
    (hsop : sop ∈ prog.ops) : ∃ id n, (id, n) ∈ a.liveNodes ∧ sop.op = n.op := by
  obtain ⟨_, _, hassigned⟩ := assignSlots_ok hs
  obtain ⟨_, hprog, _⟩ := projectWithFusion_ok hs hp
  rw [hprog] at hsop
  obtain ⟨e, he, rfl⟩ := List.mem_map.mp hsop
  obtain ⟨n, hem⟩ := hassigned.emitted e he
  exact ⟨e.1, n, hem.live, hem.op_eq⟩

theorem compiled_of_lowerable (hv : verify a = .ok ()) (h : Lowerable a roots)
    (ho : projectionOrder a clusters = .ok order) :
    ∃ s prog tp, assignSlots a clusters = .ok s ∧ projectWithFusion a roots clusters = .ok prog ∧
      lower prog = .ok tp ∧ Compiled a roots order s tp := by
  obtain ⟨s, prog, hs, hp⟩ := projection_total hv ho h.roots
  have hops : ∀ sop ∈ prog.ops, sop.op.refused = false := by
    intro sop hsop
    obtain ⟨id, n, hn, hop⟩ := ops_live hs hp hsop
    rw [hop]
    exact h.ops id n hn
  obtain ⟨tp, hl⟩ := lower_isOk.mpr hops
  obtain ⟨order', ho', hc⟩ := compiled_of_ok hs hp hl
  rw [ho, Except.ok.injEq] at ho'
  exact ⟨s, prog, tp, hs, hp, hl, ho' ▸ hc⟩

theorem projectionOrder_total (hl : InputsLive a) (hac : ValueAcyclic a) :
    ∃ order, projectionOrder a clusters = .ok order := by
  unfold projectionOrder
  split
  · exact schedule_total hl hac
  · exact scheduleFused_total hl hac clusters.clusterOf

-- ---------------------------------------------------------------------------
-- One program
-- ---------------------------------------------------------------------------

/-- An argument list that is told apart at place `k` only. -/
theorem initialTable_iff (hn : (id, n) ∈ a.liveNodes) (hk : n.op = .param k) :
    (∀ args, Covers a args → (initialTable tp args)[x]? = args[k.toNat]?) ↔ x = k.toNat := by
  constructor
  · intro h
    by_contra hne
    have hlt : k.toNat < paramSpan a := paramSpan_le.mp le_rfl id n k hn hk
    let zeros : List Value := List.replicate (paramSpan a) (.f64 (.zero false))
    have hargs := h (zeros.set k.toNat (.i64 1)) fun id n k hn hk => by
      simpa [zeros] using Nat.lt_of_succ_le (paramSpan_le.mp le_rfl id n k hn hk)
    rw [List.getElem?_set_self (by simpa [zeros] using hlt), initialTable] at hargs
    rw [List.getElem?_append, List.getElem?_set_ne (Ne.symm hne)] at hargs
    split at hargs <;> simp [zeros, List.getElem?_replicate] at hargs
  · rintro rfl args hargs
    rw [initialTable, List.getElem?_append_left (hargs id n k hn hk)]

theorem lookup_param (h : Assigned a order s) (hs : Scheduled a order)
    (hn : (id, n) ∈ a.liveNodes) (hp : n.op.isParam = true) :
    s.lookup id = .ok x ↔ (paramSlots a order)[x]? = some id.index := by
  rw [lookup_ok h.table]
  constructor
  · intro hx
    have hlt := (h.isParam_iff hs hn ((lookup_ok h.table).mpr hx)).mp hp
    rwa [slotOrder, List.getElem?_append_left hlt] at hx
  · exact getElem?_append_of_some

/-- A parameter's slot occurs in the program exactly when the node is read. -/
theorem Compiled.isRead_iff (hv : verify a = .ok ()) (h : Compiled a roots order s tp)
    (hn : (id, n) ∈ a.liveNodes) (hp : n.op.isParam = true) (hx : s.lookup id = .ok x) :
    (x ∈ tp.results ∨ ∃ i ∈ tp.instrs, x ∈ i.reads) ↔ IsRead a roots id := by
  have hslot := (lookup_ok h.assigned.table).mp hx
  have hinj : ∀ {y i : Nat}, (slotOrder a order)[y]? = some i → (i = id.index ↔ y = x) := by
    intro y i hy
    constructor
    · rintro rfl
      have hylt := (List.getElem?_eq_some_iff.mp hy).1
      exact (List.getElem?_inj hylt (slotOrder_nodup h.scheduled)).mp (hy.trans hslot.symm)
    · rintro rfl
      rw [hslot, Option.some.injEq] at hy
      exact hy.symm
  refine or_congr ?_ ?_
  · constructor
    · intro hm
      obtain ⟨r, hr, hrx⟩ := Schedule.mem_of_forall₂ h.results hm
      exact ⟨r, hr, (hinj ((lookup_ok h.assigned.table).mp hrx)).mpr rfl⟩
    · rintro ⟨r, hr, hri⟩
      obtain ⟨y, hy, hry⟩ := Schedule.mem_of_forall₂ h.results.flip hr
      exact (hinj ((lookup_ok h.assigned.table).mp hry)).mp hri ▸ hy
  · constructor
    · rintro ⟨i, hi, hxi⟩
      rw [h.instrs] at hi
      obtain ⟨⟨c, sop⟩, he, hi⟩ := List.mem_filterMap.mp hi
      obtain ⟨m, hem⟩ := h.assigned.emitted _ he
      rw [instrOf_reads hi (arity_of_emitted hv hem)] at hxi
      split at hxi
      · -- a sample reads its own slot, which is no parameter's
        obtain rfl := List.mem_singleton.mp hxi
        obtain ⟨rfl, rfl⟩ := h.assigned.slot_unique hn hem.live hx
          ((lookup_ok h.assigned.table).mpr hem.output)
        rw [hem.not_param] at hp
        cases hp
      · obtain ⟨v, hvm, hvx, _⟩ := Schedule.mem_of_forall₂ hem.inputs hxi
        refine ⟨c, m, hem.live, ?_, v, hvm, (hinj hvx).mpr rfl⟩
        rw [← hem.op_eq, ← instrOf_isSome, hi]
        rfl
    · rintro ⟨c, m, hm, hi, v, hvm, hvi⟩
      obtain ⟨sop, he, hem, _⟩ := h.assigned.op_of_live h.scheduled hm (Op.isParam_of_hasInstr hi)
      obtain ⟨i, hit, hi'⟩ := h.mem_instrs he (hem.op_eq ▸ hi)
      obtain ⟨y, hy, hyx, _⟩ := Schedule.mem_of_forall₂ hem.inputs.flip hvm
      refine ⟨i, hit, ?_⟩
      have harity := arity_of_emitted hv hem
      rw [instrOf_reads hi' harity, if_neg, ← (hinj hyx).mp hvi]
      · exact hy
      · intro hr
        have : sop.inputs = [] := by
          rw [← List.length_eq_zero_iff, harity]
          revert hr
          cases sop.op <;> simp [Op.isRng, expectedArity]
        rw [this] at hy
        cases hy

/-- Parameters are bound exactly when those read stand at their index. -/
theorem Compiled.paramsBound_iff (hv : verify a = .ok ()) (h : Compiled a roots order s tp) :
    ParamsBound a s tp ↔ ∀ id n k, (id, n) ∈ a.liveNodes → n.op = .param k → IsRead a roots id →
      (paramSlots a order)[k.toNat]? = some id.index := by
  have hslot : ∀ id n k, (id, n) ∈ a.liveNodes → n.op = .param k → n.op.isParam = true :=
    fun id n k _ hk => Op.isParam_iff.mpr ⟨k, hk⟩
  constructor
  · intro hb id n k hn hk hr
    obtain ⟨x, hx⟩ := h.assigned.lookup_of_live h.scheduled hn
    have hp := hslot id n k hn hk
    have hxk := (initialTable_iff hn hk).mp
      (hb id n k x hn hk hx ((h.isRead_iff hv hn hp hx).mpr hr))
    exact hxk ▸ (lookup_param h.assigned h.scheduled hn hp).mp hx
  · intro hpos id n k x hn hk hx hread
    have hp := hslot id n k hn hk
    have hk' := (lookup_param h.assigned h.scheduled hn hp).mpr
      (hpos id n k hn hk ((h.isRead_iff hv hn hp hx).mp hread))
    rw [hx, Except.ok.injEq] at hk'
    exact (initialTable_iff hn hk).mpr hk'

-- ---------------------------------------------------------------------------
-- Every clustering
-- ---------------------------------------------------------------------------

theorem mem_liveParams : id ∈ liveParams a ↔ ∃ n k, (id, n) ∈ a.liveNodes ∧ n.op = .param k := by
  rw [liveParams, List.mem_filter, IrArena.liveIds, List.mem_map]
  constructor
  · rintro ⟨⟨⟨id, n⟩, hn, rfl⟩, hp⟩
    rw [isParam_live hn, Op.isParam_iff] at hp
    obtain ⟨k, hk⟩ := hp
    exact ⟨n, k, hn, hk⟩
  · rintro ⟨n, k, hn, hk⟩
    exact ⟨⟨_, hn, rfl⟩, by rw [isParam_live hn, hk]; rfl⟩

theorem paramSlots_perm (hs : Scheduled a order) :
    (paramSlots a order).Perm ((liveParams a).map (·.index)) :=
  (hs.perm.filter _).map _

theorem param_no_inputs (hv : verify a = .ok ()) (hn : (id, n) ∈ a.liveNodes)
    (hp : n.op.isParam = true) : n.valueInputs = [] := by
  obtain ⟨k, hk⟩ := Op.isParam_iff.mp hp
  have harity := ((verify_ok.mp hv).2.2 id n hn).arity
  rw [hk] at harity
  rw [Node.valueInputs, List.length_eq_zero_iff.mp harity, List.take_nil]

/-- The plain schedule keeps the parameters in slot order. -/
theorem paramSlots_schedule (hv : verify a = .ok ()) (h : schedule a = .ok order) :
    paramSlots a order = (liveParams a).map (·.index) := by
  rw [paramSlots, liveParams, schedule_sources (fun id n hn hp => ?_) h]
  exact param_no_inputs hv hn (isParam_live hn ▸ hp)

/-- Some cluster set makes a given parameter the first node of all. -/
theorem exists_param_first (hv : verify a = .ok ()) (hl : InputsLive a) (hac : ValueAcyclic a)
    (hn : (id, n) ∈ a.liveNodes) (hp : n.op.isParam = true) :
    ∃ clusters order, ClusterSet.Built clusters ∧ projectionOrder a clusters = .ok order ∧
      (paramSlots a order)[0]? = some id.index := by
  -- one cluster with everything else in it
  have hnd : ((a.liveIds.filter (· ≠ id)).map (·.index)).Nodup := by
    have := a.liveSlots_nodup
    rw [← IrArena.map_index_liveIds] at this
    exact this.sublist (List.filter_sublist.map _)
  obtain ⟨clusters, hb, hne, hin, hout⟩ := ClusterSet.exists_assigned (c := 0)
    (show ClusterSet.Built ((ClusterSet.new a).addCluster 0 0).2 from .addCluster (.new a))
    (by simp [ClusterSet.addCluster]) hnd (by
      intro p hp
      obtain ⟨⟨p, m⟩, hm, rfl⟩ := List.mem_map.mp (List.mem_filter.mp hp).1
      have hlt := (IrArena.mem_liveSlots.mp (IrArena.index_mem_liveSlots hm)).1
      simp [ClusterSet.addCluster, ClusterSet.new, IrArena.slotCount, hlt])
  have hnone : clusters.clusterOf id = none := by
    rw [hout id]
    · simp only [ClusterSet.clusterOf, ClusterSet.addCluster, ClusterSet.new,
        List.getElem?_replicate]
      split <;> rfl
    · intro hm
      obtain ⟨p, hp, hi⟩ := List.mem_map.mp hm
      obtain ⟨hpl, hpne⟩ := List.mem_filter.mp hp
      obtain ⟨⟨p, m⟩, hm, rfl⟩ := List.mem_map.mp hpl
      simp [(IrArena.live_unique hm hn hi).1] at hpne
  -- a parameter has no ancestors
  have hanc : ∀ x, ¬ ValueDep a x id.index := by
    rintro x ⟨i, m, hm, hi, v, hvm, _⟩
    obtain ⟨rfl, rfl⟩ := IrArena.live_unique hm hn hi
    rw [param_no_inputs hv hm hp] at hvm
    cases hvm
  have hcl : ∀ p ∈ a.liveIds,
      clusters.clusterOf p = none ↔ ReflTransGen (ValueDep a) p.index id.index := by
    intro p hpl
    obtain ⟨⟨p, m⟩, hm, rfl⟩ := List.mem_map.mp hpl
    by_cases he : p = id
    · subst he
      simp [hnone, ReflTransGen.refl]
    · rw [hin p (List.mem_filter.mpr ⟨hpl, by simpa using he⟩)]
      refine iff_of_false (by simp) fun hpath => ?_
      rcases reflTransGen_iff_eq_or_transGen.mp hpath with hi | hpath
      · exact he (IrArena.live_unique hm hn hi.symm).1
      · obtain ⟨x, _, hx⟩ := TransGen.tail'_iff.mp hpath
        exact hanc x hx
  obtain ⟨order, ho, hfirst⟩ := fused_order_of_clusters hl hac hn hcl
  have hsched := scheduleFused_scheduled ho
  have hmem : id ∈ order := hsched.perm.mem_iff.mpr (List.mem_map.mpr ⟨_, hn, rfl⟩)
  obtain ⟨l, r, rfl⟩ := List.append_of_mem hmem
  have hlnil : l = [] := by
    rw [List.eq_nil_iff_forall_not_mem]
    intro p hpl
    obtain ⟨x, _, hx⟩ := TransGen.tail'_iff.mp (hfirst p ⟨l, r, rfl, hpl⟩)
    exact hanc x hx
  subst hlnil
  refine ⟨clusters, [] ++ id :: r, hb, ?_, ?_⟩
  · rw [projectionOrder, if_neg (by simpa [ClusterSet.isEmpty] using hne)]
    exact ho
  · simp [paramSlots, isParam_live hn, hp]

theorem liveParams_getElem? (hn : (id, n) ∈ a.liveNodes) :
    ((liveParams a).map (·.index))[x]? = some id.index ↔ (liveParams a)[x]? = some id := by
  rw [List.getElem?_map, Option.map_eq_some_iff]
  constructor
  · rintro ⟨p, hp, hi⟩
    obtain ⟨m, _, hm, _⟩ := mem_liveParams.mp (List.mem_of_getElem? hp)
    rw [hp, (IrArena.live_unique hm hn hi).1]
  · intro hp
    exact ⟨id, hp, rfl⟩

theorem liveParams_eq_singleton (hid : id ∈ liveParams a) (h : ∀ p ∈ liveParams a, p = id) :
    liveParams a = [id] := by
  have hnd : (liveParams a).Nodup := a.liveIds_nodup.filter _
  cases hl : liveParams a with
  | nil => simp [hl] at hid
  | cons p l =>
    rw [hl] at h hnd
    obtain rfl := h p (by simp)
    cases l with
    | nil => rfl
    | cons q l =>
      obtain rfl := h q (by simp)
      simp at hnd

/-- What the binding under `clusters` says about the order they lead to. -/
theorem BindsParams.paramSlots (hb : BindsParams a roots clusters) (hv : verify a = .ok ())
    (hlow : Lowerable a roots) (ho : projectionOrder a clusters = .ok order)
    (hn : (id, n) ∈ a.liveNodes) (hk : n.op = .param k) (hr : IsRead a roots id) :
    (paramSlots a order)[k.toNat]? = some id.index := by
  obtain ⟨s, prog, tp, hs, hp, hl, hc⟩ := compiled_of_lowerable hv hlow ho
  exact (hc.paramsBound_iff hv).mp (hb s prog tp hs hp hl) id n k hn hk hr

/-- For an arena that compiles, the binding is right for the plain schedule
exactly when each parameter read stands at its own index among the live
ones, and for every clustering exactly when a parameter read is number 0 and
alone. -/
theorem bindsParams_iff (hv : verify a = .ok ()) :
    (BindsParams a roots .empty ↔ (Lowerable a roots →
      ∀ id n k, (id, n) ∈ a.liveNodes → n.op = .param k → IsRead a roots id →
        (liveParams a)[k.toNat]? = some id)) ∧
    ((∀ clusters, ClusterSet.Built clusters → BindsParams a roots clusters) ↔
      (Lowerable a roots →
        ∀ id n k, (id, n) ∈ a.liveNodes → n.op = .param k → IsRead a roots id →
          k = 0 ∧ liveParams a = [id])) := by
  refine ⟨⟨?_, ?_⟩, ?_, ?_⟩
  · intro hb hlow id n k hn hk hr
    obtain ⟨order, ho⟩ := schedule_total hlow.inputs hlow.acyclic
    have := hb.paramSlots hv hlow ho hn hk hr
    rwa [paramSlots_schedule hv ho, liveParams_getElem? hn] at this
  · intro h s prog tp hs hp hl
    obtain ⟨order, ho, hc⟩ := compiled_of_ok hs hp hl
    refine (hc.paramsBound_iff hv).mpr fun id n k hn hk hr => ?_
    rw [paramSlots_schedule hv ho, liveParams_getElem? hn]
    exact h (lowerable_of_ok hs hp hl) id n k hn hk hr
  · intro hb hlow id n k hn hk hr
    have hp : n.op.isParam = true := Op.isParam_iff.mpr ⟨k, hk⟩
    obtain ⟨clusters, order, hbuilt, ho, hfirst⟩ :=
      exists_param_first hv hlow.inputs hlow.acyclic hn hp
    have hk0 : k.toNat = 0 := by
      have hat := (hb clusters hbuilt).paramSlots hv hlow ho hn hk hr
      have hnd : (Projection.paramSlots a order).Nodup :=
        (slotOrder_nodup (projectionOrder_scheduled ho)).sublist (List.sublist_append_left _ _)
      exact (List.getElem?_inj (List.getElem?_eq_some_iff.mp hat).1 hnd).mp (hat.trans hfirst.symm)
    refine ⟨UInt32.toNat_inj.mp hk0, liveParams_eq_singleton (mem_liveParams.mpr ⟨n, k, hn, hk⟩) ?_⟩
    -- a second parameter could be made the first one instead
    intro p hpl
    obtain ⟨m, j, hm, hj⟩ := mem_liveParams.mp hpl
    obtain ⟨clusters, order, hbuilt, ho, hfirst⟩ :=
      exists_param_first hv hlow.inputs hlow.acyclic hm (Op.isParam_iff.mpr ⟨j, hj⟩)
    have hat := (hb clusters hbuilt).paramSlots hv hlow ho hn hk hr
    rw [hk0, hfirst, Option.some.injEq] at hat
    exact (IrArena.live_unique hm hn hat).1
  · intro h clusters _ s prog tp hs hp hl
    obtain ⟨order, _, hc⟩ := compiled_of_ok hs hp hl
    refine (hc.paramsBound_iff hv).mpr fun id n k hn hk hr => ?_
    obtain ⟨rfl, hone⟩ := h (lowerable_of_ok hs hp hl) id n k hn hk hr
    have hperm := paramSlots_perm hc.scheduled
    rw [hone, List.map_singleton, List.perm_singleton] at hperm
    rw [hperm]
    rfl

/-- The negation of the only parameter. -/
def negatedParam (index : UInt32) : IrArena := .built do
  let a := IrArena.withCapacity 16 4
  let (p, a) ← a.insertNode a.rootRegion (.new (.param index) a.rootRegion [] (.scalar .f64))
  let pval ← a.valueOf p 0
  let (_, a) ← a.insertNode a.rootRegion
    (.new (.unary .neg) a.rootRegion [pval] (.scalar .f64))
  return a

theorem bindsParams_iff_negatedParam :
    BindsParams (negatedParam 0) [.pack 1 0 .graph] .empty ∧
      ∀ clusters, ClusterSet.Built clusters →
        BindsParams (negatedParam 0) [.pack 1 0 .graph] clusters := by
  have h : (BindsParams (negatedParam 0) [.pack 1 0 .graph] .empty ↔ _) ∧ _ :=
    bindsParams_iff (by decide)
  have hone : ∀ e ∈ (negatedParam 0).liveNodes, e.2.op.isParam = true →
      e.2.op = .param 0 ∧ liveParams (negatedParam 0) = [e.1] := by decide
  have hparams : ∀ id n k, (id, n) ∈ (negatedParam 0).liveNodes → n.op = .param k →
      k = 0 ∧ liveParams (negatedParam 0) = [id] := by
    intro id n k hn hk
    obtain ⟨hop, hl⟩ := hone _ hn (Op.isParam_iff.mpr ⟨k, hk⟩)
    exact ⟨Op.param.inj (hk.symm.trans hop), hl⟩
  refine ⟨h.1.mpr fun _ id n k hn hk _ => ?_, h.2.mpr fun _ id n k hn hk _ => hparams id n k hn hk⟩
  obtain ⟨rfl, hl⟩ := hparams id n k hn hk
  rw [hl]
  rfl

/-- Parameter 1 without a parameter 0: the second argument is never read. -/
theorem negatedParam_not_bindsParams :
    verify (negatedParam 1) = .ok () ∧
      ¬ BindsParams (negatedParam 1) [.pack 1 0 .graph] .empty := by
  refine ⟨by decide, fun hb => ?_⟩
  obtain ⟨s, prog, tp, hs, hp, hl⟩ :=
    exists_compiled (a := negatedParam 1) (r := [.pack 1 0 .graph]) (c := .empty) (by decide)
  obtain ⟨order, _, hc⟩ := compiled_of_ok hs hp hl
  have hat : ∃ e ∈ (negatedParam 1).liveNodes, e.2.op = .param 1 ∧ e.1.index = 0 := by decide
  obtain ⟨⟨id, n⟩, hn, hk, hi⟩ := hat
  have huse : ∃ e ∈ (negatedParam 1).liveNodes, e.2.op.hasInstr = true ∧
      ∃ v ∈ e.2.valueInputs, v.node.index = 0 := by decide
  obtain ⟨⟨c, m⟩, hm, hinstr, v, hv, hvi⟩ := huse
  have hslot := (hc.paramsBound_iff (by decide)).mp (hb s prog tp hs hp hl) id n 1 hn hk
    (.inr ⟨c, m, hm, hinstr, v, hv, hvi.trans hi.symm⟩)
  have hone : (paramSlots (negatedParam 1) order).length = 1 := by
    rw [(paramSlots_perm hc.scheduled).length_eq]
    decide
  rw [List.getElem?_eq_none (by simp [hone])] at hslot
  cases hslot

end Sxla
