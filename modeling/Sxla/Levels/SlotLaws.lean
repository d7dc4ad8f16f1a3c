import Sxla.Graph.ScheduleLaws
import Sxla.Levels.Level3

/-!
# What the projection does with slots

For a scheduled order the slot table inverts one list, `slotOrder`: the
parameters in the order they are emitted, then all other nodes. `Assigned`
collects what the two loops leave behind, and `assignSlots_ok` and
`assignSlots_total` say that they leave exactly that for every schedulable
arena whose nodes have at most six inputs.
-/

namespace Sxla

open DepOrder Checked

variable {a : IrArena} {id : NodeId} {n : Node} {order ids : List NodeId} {s t : Projection}
  {slots : List Nat} {i x m : Nat}

namespace Projection

def isParam (a : IrArena) (id : NodeId) : Bool :=
  match a.node id with
  | .ok n => n.op.isParam
  | .error _ => false

def paramSlots (a : IrArena) (order : List NodeId) : List Nat :=
  (order.filter (isParam a)).map (·.index)

def opSlots (a : IrArena) (order : List NodeId) : List Nat :=
  (order.filter fun id => !isParam a id).map (·.index)

/-- The node slots in the order their value slots are handed out. -/
def slotOrder (a : IrArena) (order : List NodeId) : List Nat :=
  paramSlots a order ++ opSlots a order

/-- The slot table holds the positions of `slots`. -/
structure Table (a : IrArena) (s : Projection) (slots : List Nat) : Prop where
  next : s.nextSlot = slots.length
  size : s.slotOf.length = a.slotCount
  entry : ∀ i x : Nat, (s.slotOf[i]?).join = some x ↔ slots[x]? = some i

/-- One past the largest parameter index of a live node. -/
def paramSpan (a : IrArena) : Nat :=
  ((a.liveNodes.filterMap fun e => e.2.op.paramIndex).map (·.toNat + 1)).foldr max 0

/-- A scheduled op, read off the node it comes from; `slots` is the final
slot order. Its operands have smaller slots than its output. -/
structure EmittedFrom (a : IrArena) (slots : List Nat) (id : NodeId) (n : Node)
    (sop : ScheduledOp) : Prop where
  live : (id, n) ∈ a.liveNodes
  not_param : n.op.isParam = false
  op_eq : sop.op = n.op
  ty_eq : sop.ty = n.ty
  output : slots[sop.output]? = some id.index
  inputs : List.Forall₂ (fun v x => slots[x]? = some v.node.index ∧ x < sop.output)
    n.valueInputs sop.inputs

/-- What the two loops leave behind for a scheduled order. -/
structure Assigned (a : IrArena) (order : List NodeId) (s : Projection) : Prop where
  table : Table a s (slotOrder a order)
  outputs : s.ops.map (·.2.output) =
    List.range' (paramSlots a order).length (opSlots a order).length
  emitted : ∀ e ∈ s.ops, ∃ n, EmittedFrom a (slotOrder a order) e.1 n e.2
  params : s.params.length = paramSpan a

-- ---------------------------------------------------------------------------
-- The slot table
-- ---------------------------------------------------------------------------

theorem lookup_ok (h : Table a s slots) : s.lookup id = .ok x ↔ slots[x]? = some id.index := by
  rw [← h.entry, lookup]
  cases (s.slotOf[id.index]?).join <;> simp

theorem start_table : Table a (.start a) [] where
  next := rfl
  size := by simp [start]
  entry := by
    intro i x
    simp only [start, List.getElem?_nil, List.getElem?_replicate]
    split <;> simp

theorem assignSlot_table (h : Table a s slots) (hi : id.index < a.slotCount)
    (hn : id.index ∉ slots) : Table a (s.assignSlot id) (slots ++ [id.index]) where
  next := by simp [assignSlot, h.next]
  size := by simp [assignSlot, h.size]
  entry := by
    intro i x
    by_cases he : id.index = i
    · subst he
      have hx : slots[x]? ≠ some id.index := fun hx => hn (List.mem_of_getElem? hx)
      simp only [assignSlot, List.getElem?_set_self (h.size ▸ hi), Option.join_some,
        Option.some.injEq, h.next, List.getElem?_append]
      split
      · simp [hx]
        omega
      · rename_i hlt
        constructor
        · rintro rfl; simp
        · intro hg
          obtain ⟨hlt', _⟩ := List.getElem?_eq_some_iff.mp hg
          simp at hlt'
          omega
    · have hset : (s.assignSlot id).slotOf[i]? = s.slotOf[i]? := by
        simp [assignSlot, List.getElem?_set_ne he]
      rw [hset, h.entry, List.getElem?_append]
      split
      · rfl
      · rename_i hlt
        rw [List.getElem?_eq_none (Nat.le_of_not_lt hlt)]
        simp only [reduceCtorEq, false_iff]
        intro hg
        obtain ⟨_, hg⟩ := List.getElem?_eq_some_iff.mp hg
        simp at hg
        exact he hg

theorem Table.with_params (h : Table a s slots) (params : List Ty) :
    Table a { s with params := params } slots :=
  ⟨h.next, h.size, h.entry⟩

theorem Table.with_ops (h : Table a s slots) (ops : List (NodeId × ScheduledOp)) :
    Table a { s with ops := ops } slots :=
  ⟨h.next, h.size, h.entry⟩

theorem length_setParam (params : List Ty) (idx : Nat) (ty : Ty) :
    (setParam params idx ty).length = max params.length (idx + 1) := by
  simp [setParam]
  omega

theorem nodeOf_live (h : (id, n) ∈ a.liveNodes) : nodeOf a id = .ok n := by
  simp [nodeOf, IrArena.node_of_live h]

theorem isParam_live (h : (id, n) ∈ a.liveNodes) : isParam a id = n.op.isParam := by
  simp [isParam, IrArena.node_of_live h]

-- ---------------------------------------------------------------------------
-- The loop over the parameters
-- ---------------------------------------------------------------------------

theorem bindParam_param (h : (id, n) ∈ a.liveNodes) (hp : n.op = .param k) :
    bindParam a s id =
      .ok { s.assignSlot id with params := setParam s.params k.toNat n.ty } := by
  simp [bindParam, nodeOf_live h, hp, bind, Except.bind, pure, Except.pure]

theorem bindParam_other (h : (id, n) ∈ a.liveNodes) (hp : n.op.isParam = false) :
    bindParam a s id = .ok s := by
  simp only [bindParam, nodeOf_live h, bind, Except.bind]
  split
  · rename_i k hk
    rw [hk] at hp
    cases hp
  · rfl

theorem bindParams (hids : ∀ id ∈ ids, ∃ n, (id, n) ∈ a.liveNodes)
    (hnd : (ids.map (·.index)).Nodup) (h : Table a s slots)
    (hdisj : ∀ id ∈ ids, id.index ∉ slots) :
    ∃ t, ids.foldlM (bindParam a) s = .ok t ∧ Table a t (slots ++ paramSlots a ids) ∧
      t.ops = s.ops ∧
      ∀ m, t.params.length ≤ m ↔ s.params.length ≤ m ∧
        ∀ id ∈ ids, ∀ n k, (id, n) ∈ a.liveNodes → n.op = .param k → k.toNat + 1 ≤ m := by
  induction ids generalizing s slots with
  | nil => exact ⟨s, rfl, by simpa [paramSlots] using h, rfl, by simp⟩
  | cons id ids ih =>
    obtain ⟨n, hn⟩ := hids id (by simp)
    have hids' : ∀ id ∈ ids, ∃ n, (id, n) ∈ a.liveNodes := fun i hi =>
      hids i (List.mem_cons_of_mem _ hi)
    simp only [List.map_cons, List.nodup_cons] at hnd
    obtain ⟨hni, hnd⟩ := hnd
    have hlt : id.index < a.slotCount :=
      (IrArena.mem_liveSlots.mp (IrArena.index_mem_liveSlots hn)).1
    cases hp : n.op.isParam with
    | true =>
      obtain ⟨k, hk⟩ := Op.isParam_iff.mp hp
      have htab := (assignSlot_table h hlt (hdisj id (by simp))).with_params
        (setParam s.params k.toNat n.ty)
      obtain ⟨t, ht, htt, hto, htp⟩ := ih hids' hnd htab (by
        intro i hi hm
        rcases List.mem_append.mp hm with hm | hm
        · exact hdisj i (List.mem_cons_of_mem _ hi) hm
        · exact hni (List.mem_singleton.mp hm ▸ List.mem_map_of_mem hi))
      refine ⟨t, ?_, ?_, hto, fun m => ?_⟩
      · rw [List.foldlM_cons, bindParam_param hn hk]
        exact ht
      · have : paramSlots a (id :: ids) = id.index :: paramSlots a ids := by
          simp [paramSlots, isParam_live hn, hp]
        rw [this]
        simpa using htt
      · rw [htp, length_setParam, max_le_iff, and_assoc]
        simp only [List.mem_cons, forall_eq_or_imp]
        refine and_congr_right fun _ => and_congr_left fun _ => ?_
        constructor
        · intro hm n' k' hn' hk'
          obtain ⟨_, rfl⟩ := IrArena.live_unique hn hn' rfl
          rw [hk, Op.param.injEq] at hk'
          exact hk' ▸ hm
        · intro hm
          exact hm n k hn hk
    | false =>
      obtain ⟨t, ht, htt, hto, htp⟩ := ih hids' hnd h
        (fun i hi => hdisj i (List.mem_cons_of_mem _ hi))
      refine ⟨t, ?_, ?_, hto, fun m => ?_⟩
      · rw [List.foldlM_cons, bindParam_other hn hp]
        exact ht
      · simpa [paramSlots, isParam_live hn, hp] using htt
      · rw [htp]
        simp only [List.mem_cons, forall_eq_or_imp]
        refine and_congr_right fun _ => (and_iff_right ?_).symm
        intro n' k' hn' hk'
        obtain ⟨_, rfl⟩ := IrArena.live_unique hn hn' rfl
        rw [hk'] at hp
        cases hp

-- ---------------------------------------------------------------------------
-- The loop over the other nodes
-- ---------------------------------------------------------------------------

theorem emitOp_param (h : (id, n) ∈ a.liveNodes) (hp : n.op.isParam = true) :
    emitOp a c s id = .ok s := by
  obtain ⟨k, hk⟩ := Op.isParam_iff.mp hp
  simp [emitOp, nodeOf_live h, hk, bind, Except.bind, pure, Except.pure]

theorem emitOp_other (h : (id, n) ∈ a.liveNodes) (hp : n.op.isParam = false) :
    emitOp a c s id = .ok t ↔ n.nInputs ≤ MAX_INPUTS ∧
      ∃ inputs, n.valueInputs.mapM (fun v => s.lookup v.node) = .ok inputs ∧
        t = { s.assignSlot id with
          ops := s.ops ++ [(id, ⟨n.op, inputs, s.nextSlot, n.ty, c id⟩)] } := by
  have hbody : emitOp a c s id =
      (if n.nInputs > MAX_INPUTS then throw .arity else pure ()) >>= fun _ => do
        let inputs ← n.valueInputs.mapM fun v => s.lookup v.node
        return { s.assignSlot id with
          ops := s.ops ++ [(id, ⟨n.op, inputs, s.nextSlot, n.ty, c id⟩)] } := by
    simp only [emitOp, nodeOf_live h, bind, Except.bind]
    split
    · rename_i k hk
      rw [hk] at hp
      cases hp
    · split <;> rfl
  rw [hbody]
  by_cases hlt : n.nInputs > MAX_INPUTS
  · simp only [if_pos hlt, bind_ok]
    constructor
    · rintro ⟨_, h, _⟩
      cases h
    · rintro ⟨h, _⟩
      omega
  · simp only [if_neg hlt, bind_ok, pure_ok]
    simp [Nat.le_of_not_lt hlt, eq_comm]

/-- Both loops only ever extend the slot order. -/
theorem getElem?_append_of_some {l r : List Nat} (h : l[x]? = some i) :
    (l ++ r)[x]? = some i := by
  obtain ⟨hlt, _⟩ := List.getElem?_eq_some_iff.mp h
  rw [List.getElem?_append_left hlt, h]

theorem emitOps (hids : ∀ id ∈ ids, ∃ n, (id, n) ∈ a.liveNodes)
    (hnd : (ids.map (·.index)).Nodup) (h : Table a s slots)
    (hdisj : ∀ id ∈ ids, isParam a id = false → id.index ∉ slots)
    (hrun : ids.foldlM (emitOp a c) s = .ok t) :
    Table a t (slots ++ opSlots a ids) ∧ t.params = s.params ∧
      ∃ new, t.ops = s.ops ++ new ∧
        new.map (·.2.output) = List.range' slots.length (opSlots a ids).length ∧
        ∀ e ∈ new, ∃ n, EmittedFrom a (slots ++ opSlots a ids) e.1 n e.2 := by
  induction ids generalizing s slots with
  | nil =>
    simp only [List.foldlM_nil, pure_ok] at hrun
    subst hrun
    exact ⟨by simpa [opSlots] using h, rfl, [], by simp [opSlots]⟩
  | cons id ids ih =>
    obtain ⟨n, hn⟩ := hids id (by simp)
    have hids' : ∀ id ∈ ids, ∃ n, (id, n) ∈ a.liveNodes := fun i hi =>
      hids i (List.mem_cons_of_mem _ hi)
    simp only [List.map_cons, List.nodup_cons] at hnd
    obtain ⟨hni, hnd⟩ := hnd
    have hlt : id.index < a.slotCount :=
      (IrArena.mem_liveSlots.mp (IrArena.index_mem_liveSlots hn)).1
    simp only [List.foldlM_cons, bind_ok] at hrun
    obtain ⟨u, hu, hrun⟩ := hrun
    cases hp : n.op.isParam with
    | true =>
      rw [emitOp_param hn hp, Except.ok.injEq] at hu
      subst hu
      have hops : opSlots a (id :: ids) = opSlots a ids := by
        simp [opSlots, isParam_live hn, hp]
      rw [hops]
      exact ih hids' hnd h (fun i hi => hdisj i (List.mem_cons_of_mem _ hi)) hrun
    | false =>
      have hops : opSlots a (id :: ids) = id.index :: opSlots a ids := by
        simp [opSlots, isParam_live hn, hp]
      obtain ⟨_, inputs, hin, rfl⟩ := (emitOp_other hn hp).mp hu
      have hnew := hdisj id (by simp) (by rw [isParam_live hn, hp])
      have htab := (assignSlot_table h hlt hnew).with_ops
        (s.ops ++ [(id, ⟨n.op, inputs, s.nextSlot, n.ty, c id⟩)])
      obtain ⟨htt, htp, new, hto, hout, hem⟩ := ih hids' hnd htab (by
        intro i hi hip hm
        rcases List.mem_append.mp hm with hm | hm
        · exact hdisj i (List.mem_cons_of_mem _ hi) hip hm
        · exact hni (List.mem_singleton.mp hm ▸ List.mem_map_of_mem hi)) hrun
      have happ : slots ++ [id.index] ++ opSlots a ids = slots ++ opSlots a (id :: ids) := by
        rw [hops]
        simp
      rw [happ] at htt hem
      refine ⟨htt, htp, (id, ⟨n.op, inputs, s.nextSlot, n.ty, c id⟩) :: new, by simp [hto],
        ?_, ?_⟩
      · rw [hops]
        simp only [List.map_cons, List.length_cons, List.range'_succ, hout, h.next]
        simp
      · intro e he
        rcases List.mem_cons.mp he with rfl | he
        · refine ⟨n, hn, hp, rfl, rfl, ?_, ?_⟩
          · simp [h.next, hops]
          · rw [mapM_ok] at hin
            refine hin.imp fun v x hx => ?_
            have hx := (lookup_ok h).mp hx
            exact ⟨getElem?_append_of_some hx, h.next ▸ (List.getElem?_eq_some_iff.mp hx).1⟩
        · exact hem e he

-- ---------------------------------------------------------------------------
-- Both loops
-- ---------------------------------------------------------------------------

theorem paramSpan_le : paramSpan a ≤ m ↔
    ∀ id n k, (id, n) ∈ a.liveNodes → n.op = .param k → k.toNat + 1 ≤ m := by
  have hfold : ∀ l : List Nat, l.foldr max 0 ≤ m ↔ ∀ x ∈ l, x ≤ m := by
    intro l
    induction l with
    | nil => simp
    | cons x l ih => simp [ih]
  rw [paramSpan, hfold]
  constructor
  · intro h id n k hn hk
    exact h _ (List.mem_map.mpr
      ⟨k, List.mem_filterMap.mpr ⟨(id, n), hn, Op.paramIndex_eq_some.mpr hk⟩, rfl⟩)
  · intro h x hx
    obtain ⟨k, hk, rfl⟩ := List.mem_map.mp hx
    obtain ⟨⟨id, n⟩, hn, hop⟩ := List.mem_filterMap.mp hk
    exact h id n k hn (Op.paramIndex_eq_some.mp hop)

theorem live_of_mem (h : Scheduled a order) (hid : id ∈ order) :
    ∃ n, (id, n) ∈ a.liveNodes := by
  obtain ⟨⟨i, n⟩, hn, rfl⟩ := List.mem_map.mp (h.perm.mem_iff.mp hid)
  exact ⟨n, hn⟩

theorem slotOrder_perm (h : Scheduled a order) : (slotOrder a order).Perm a.liveSlots := by
  rw [slotOrder, paramSlots, opSlots, ← List.map_append]
  exact ((List.filter_append_perm _ _).map _).trans h.slots_perm

theorem slotOrder_nodup (h : Scheduled a order) : (slotOrder a order).Nodup :=
  (slotOrder_perm h).nodup_iff.mpr a.liveSlots_nodup

theorem bindParams_start (h : Scheduled a order) :
    ∃ t, order.foldlM (bindParam a) (.start a) = .ok t ∧ Table a t (paramSlots a order) ∧
      t.ops = [] ∧ t.params.length = paramSpan a := by
  obtain ⟨t, ht, htt, hto, htp⟩ := bindParams (s := .start a)
    (fun _ hid => live_of_mem h hid) h.slots_nodup start_table (by simp)
  refine ⟨t, ht, by simpa using htt, by simpa [start] using hto, ?_⟩
  refine eq_of_forall_ge_iff fun m => ?_
  rw [htp, paramSpan_le]
  simp only [start, List.length_nil, Nat.zero_le, true_and]
  constructor
  · intro hm id n k hn
    exact hm id (h.perm.mem_iff.mpr (List.mem_map.mpr ⟨_, hn, rfl⟩)) n k hn
  · intro hm id _ n k hn
    exact hm id n k hn

/-- An op node's slot is not among the parameters'. -/
theorem not_mem_paramSlots (h : Scheduled a order) (hid : id ∈ order)
    (hp : isParam a id = false) : id.index ∉ paramSlots a order := by
  intro hm
  obtain ⟨p, hpm, hpi⟩ := List.mem_map.mp hm
  obtain ⟨hpo, hpp⟩ := List.mem_filter.mp hpm
  obtain ⟨n, hn⟩ := live_of_mem h hid
  obtain ⟨d, hd⟩ := live_of_mem h hpo
  obtain ⟨rfl, _⟩ := IrArena.live_unique hd hn hpi
  rw [hp] at hpp
  cases hpp

theorem assigned_of_run (h : Scheduled a order)
    (hrun : (order.foldlM (bindParam a) (.start a) >>= fun s =>
      order.foldlM (emitOp a c) s) = .ok t) : Assigned a order t := by
  obtain ⟨s, hs, htab, hops, hpar⟩ := bindParams_start h
  rw [hs] at hrun
  obtain ⟨htt, htp, new, hnew, hout, hem⟩ := emitOps (fun _ hid => live_of_mem h hid)
    h.slots_nodup htab (fun _ hid hp => not_mem_paramSlots h hid hp) hrun
  rw [hops, List.nil_append] at hnew
  subst hnew
  exact ⟨htt, hout, hem, by rw [htp, hpar]⟩

/-- Operands of a scheduled node have their slots when its turn comes. -/
theorem emitOps_total {l r : List NodeId} (h : Scheduled a order) (ho : order = l ++ r)
    (hsmall : ∀ id n, (id, n) ∈ a.liveNodes → n.nInputs ≤ MAX_INPUTS)
    (htab : Table a s (paramSlots a order ++ opSlots a l)) :
    ∃ t, r.foldlM (emitOp a c) s = .ok t := by
  induction r generalizing l s with
  | nil => exact ⟨s, rfl⟩
  | cons id r ih =>
    have hid : id ∈ order := by simp [ho]
    obtain ⟨n, hn⟩ := live_of_mem h hid
    have hlt : id.index < a.slotCount :=
      (IrArena.mem_liveSlots.mp (IrArena.index_mem_liveSlots hn)).1
    have ho' : order = (l ++ [id]) ++ r := by simp [ho]
    cases hp : n.op.isParam with
    | true =>
      have hops : opSlots a (l ++ [id]) = opSlots a l := by
        simp [opSlots, isParam_live hn, hp]
      rw [List.foldlM_cons, emitOp_param hn hp]
      exact ih ho' (by rw [hops]; exact htab)
    | false =>
      have hops : opSlots a (l ++ [id]) = opSlots a l ++ [id.index] := by
        simp [opSlots, isParam_live hn, hp]
      have hfound : ∀ v ∈ n.valueInputs, ∃ x, s.lookup v.node = .ok x := by
        intro v hv
        have hbefore : v.node.index ∈ l.map (·.index) := by
          refine h.ordered (l.map (·.index)) id.index (r.map (·.index)) (by simp [ho]) _ ?_
          exact ⟨id, n, hn, rfl, v, hv, rfl⟩
        have hmem : v.node.index ∈ paramSlots a order ++ opSlots a l := by
          obtain ⟨p, hpl, hpi⟩ := List.mem_map.mp hbefore
          rw [← hpi]
          cases hpp : isParam a p with
          | true =>
            refine List.mem_append_left _ (List.mem_map_of_mem (List.mem_filter.mpr ⟨?_, hpp⟩))
            rw [ho]
            exact List.mem_append_left _ hpl
          | false =>
            exact List.mem_append_right _
              (List.mem_map_of_mem (List.mem_filter.mpr ⟨hpl, by simp [hpp]⟩))
        obtain ⟨x, hx⟩ := List.mem_iff_getElem?.mp hmem
        exact ⟨x, (lookup_ok htab).mpr hx⟩
      obtain ⟨inputs, hin⟩ := mapM_isOk.mpr hfound
      have hstep := (emitOp_other (c := c) hn hp).mpr ⟨hsmall id n hn, inputs, hin, rfl⟩
      have hnew : id.index ∉ paramSlots a order ++ opSlots a l := by
        intro hm
        rcases List.mem_append.mp hm with hm | hm
        · exact not_mem_paramSlots h hid (by rw [isParam_live hn, hp]) hm
        · obtain ⟨p, hpl, hpi⟩ := List.mem_map.mp hm
          have hnd := h.slots_nodup
          rw [ho, List.map_append, List.map_cons] at hnd
          refine List.disjoint_of_nodup_append hnd
            (List.mem_map_of_mem (List.mem_filter.mp hpl).1) ?_
          rw [hpi]
          simp
      have htab' := (assignSlot_table htab hlt hnew).with_ops
        (s.ops ++ [(id, ⟨n.op, inputs, s.nextSlot, n.ty, c id⟩)])
      rw [List.append_assoc, ← hops] at htab'
      rw [List.foldlM_cons, hstep]
      exact ih ho' htab'

end Projection

open Projection

theorem projectionOrder_scheduled {clusters : ClusterSet}
    (h : projectionOrder a clusters = .ok order) : Scheduled a order := by
  unfold projectionOrder at h
  split at h
  · exact schedule_scheduled h
  · exact scheduleFused_scheduled h

theorem assignSlots_ok {clusters : ClusterSet} (h : assignSlots a clusters = .ok s) :
    ∃ order, projectionOrder a clusters = .ok order ∧ Assigned a order s := by
  unfold assignSlots at h
  cases hord : projectionOrder a clusters with
  | error e => simp [hord, bind, Except.bind] at h
  | ok order =>
    simp only [hord] at h
    exact ⟨order, rfl, assigned_of_run (projectionOrder_scheduled hord) h⟩

theorem assignSlots_total {clusters : ClusterSet} (h : projectionOrder a clusters = .ok order)
    (hsmall : ∀ id n, (id, n) ∈ a.liveNodes → n.nInputs ≤ MAX_INPUTS) :
    ∃ s, assignSlots a clusters = .ok s := by
  have hs := projectionOrder_scheduled h
  obtain ⟨t, ht, htab, _, _⟩ := bindParams_start hs
  obtain ⟨u, hu⟩ := emitOps_total (l := [])
    (c := fun id => if clusters.isEmpty then none else clusters.clusterOf id)
    hs rfl hsmall (by simpa [opSlots] using htab)
  refine ⟨u, ?_⟩
  unfold assignSlots
  simp only [h]
  exact bind_ok.mpr ⟨order, rfl, bind_ok.mpr ⟨t, ht, hu⟩⟩

end Sxla
