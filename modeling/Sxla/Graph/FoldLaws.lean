import Sxla.Graph.Fold
import Sxla.Graph.Rewire
import Sxla.Graph.Values
import Sxla.Levels.Level1

/-!
# What folding keeps

A visit writes one node or none, and what it writes is a constant without
inputs where an elementwise node stood. The handles, the regions and the
effects stay, and so do the checks of the verifier. `run_induction` lifts
what every such write keeps to the whole run.
-/

namespace Sxla

open Checked IrArena Verifier

namespace Fold

variable {libm : Libm} {a b t : IrArena} {id x : NodeId} {n m d : Node}

/-- `m` is `n` folded. -/
structure Constant (n m : Node) : Prop where
  elementwise : (∃ u, n.op = .unary u) ∨ ∃ b, n.op = .binary b
  const : (∃ v, m.op = .constF64 v) ∨ ∃ v, m.op = .constI64 v
  ty : m.ty = n.ty ∨ m.ty = .scalar .i64
  inputs : m.inputs = []
  region : m.region = n.region
  next : m.nextInRegion = n.nextInRegion
  effect : m.effectIn = n.effectIn

theorem constant_of_folded (h : folded libm t n = some m) : Constant n m := by
  unfold folded at h
  split at h
  · next u hop =>
    obtain ⟨v, -, h⟩ := Option.bind_eq_some_iff.mp h
    obtain ⟨x, -, h⟩ := Option.bind_eq_some_iff.mp h
    obtain ⟨y, -, h⟩ := Option.bind_eq_some_iff.mp h
    obtain rfl := Option.some.inj h
    exact ⟨.inl ⟨u, hop⟩, .inl ⟨y, rfl⟩, .inl rfl, rfl, rfl, rfl, rfl⟩
  · next b hop =>
    obtain ⟨u, -, h⟩ := Option.bind_eq_some_iff.mp h
    obtain ⟨v, -, h⟩ := Option.bind_eq_some_iff.mp h
    split at h
    · obtain ⟨z, -, h⟩ := Option.bind_eq_some_iff.mp h
      obtain rfl := Option.some.inj h
      exact ⟨.inr ⟨b, hop⟩, .inr ⟨z, rfl⟩, .inr rfl, rfl, rfl, rfl, rfl⟩
    · obtain ⟨x, -, h⟩ := Option.bind_eq_some_iff.mp h
      obtain ⟨y, -, h⟩ := Option.bind_eq_some_iff.mp h
      obtain ⟨z, -, h⟩ := Option.bind_eq_some_iff.mp h
      obtain rfl := Option.some.inj h
      exact ⟨.inr ⟨b, hop⟩, .inl ⟨z, rfl⟩, .inl rfl, rfl, rfl, rfl, rfl⟩
  · cases h

namespace Constant

theorem level_eq (h : Constant n m) : m.op.level = n.op.level := by
  obtain ⟨helem, hconst, -⟩ := h
  rcases helem with ⟨u, hn⟩ | ⟨b, hn⟩ <;> rcases hconst with ⟨v, hm⟩ | ⟨v, hm⟩ <;>
    rw [hn, hm] <;> rfl

theorem hasEffect_eq (h : Constant n m) : m.op.hasEffect = n.op.hasEffect := by
  obtain ⟨helem, hconst, -⟩ := h
  rcases helem with ⟨u, hn⟩ | ⟨b, hn⟩ <;> rcases hconst with ⟨v, hm⟩ | ⟨v, hm⟩ <;>
    rw [hn, hm] <;> rfl

theorem not_if (h : Constant n m) : n.op ≠ .ifOp ∧ m.op ≠ .ifOp := by
  obtain ⟨helem, hconst, -⟩ := h
  constructor
  · rcases helem with ⟨u, hn⟩ | ⟨b, hn⟩ <;> simp [hn]
  · rcases hconst with ⟨v, hm⟩ | ⟨v, hm⟩ <;> simp [hm]

theorem arity (h : Constant n m) : m.inputs.length = expectedArity m.op := by
  rcases h.const with ⟨v, hm⟩ | ⟨v, hm⟩ <;> rw [h.inputs, hm] <;> rfl

theorem valueInputs (h : Constant n m) : m.valueInputs = [] := by
  rw [Node.valueInputs, h.inputs, List.take_nil]

end Constant

-- ---------------------------------------------------------------------------
-- One write
-- ---------------------------------------------------------------------------

/-- The node behind `id` has become `m`. -/
structure Write (a b : IrArena) (id : NodeId) (n m : Node) : Prop where
  node_eq : a.node id = .ok n
  constant : Constant n m
  result : b = a.mapSlots [id.index] fun _ => m

namespace Write

theorem sameTree (h : Write a b id n m) : SameTree a b := by
  rw [h.result]
  exact ⟨rfl, rfl⟩

theorem liveSlots (h : Write a b id n m) : b.liveSlots = a.liveSlots := by
  rw [h.result, mapSlots_liveSlots]

/-- What a handle resolves to behind the write. -/
theorem node (h : Write a b id n m) (hd : a.node x = .ok d) :
    b.node x = .ok (if x.index = id.index then m else d) := by
  rw [h.result, mapSlots_node, hd]
  simp only [Except.map, List.mem_singleton]

theorem node_error (h : Write a b id n m) {e : ArenaError} (hd : a.node x = .error e) :
    b.node x = .error e := by
  rw [h.result, mapSlots_node, hd]
  rfl

/-- Only `n` itself is written. -/
theorem eq_of_index (h : Write a b id n m) (hd : a.node x = .ok d) (hi : x.index = id.index) :
    d = n := by
  have hslot := slot_of_node hd
  rw [hi, slot_of_node h.node_eq] at hslot
  exact (NodeSlot.mk.inj (Option.some.inj hslot)).1.symm

theorem mem_liveNodes (h : Write a b id n m) : (x, d) ∈ b.liveNodes ↔
    ∃ c, (x, c) ∈ a.liveNodes ∧ (if x.index = id.index then m else c) = d := by
  constructor
  · intro hd
    have hlive := index_mem_liveSlots hd
    rw [h.liveSlots] at hlive
    obtain ⟨y, c, hc, hi⟩ := exists_live hlive
    have hwritten := h.node (node_of_live hc)
    -- both handles are spelled with the level of the node they resolve to
    obtain ⟨-, g, hslot, hid⟩ := IrArena.mem_liveNodes.mp hd
    obtain ⟨-, g', hslot', hid'⟩ := IrArena.mem_liveNodes.mp hc
    have hslotb := slot_of_node hwritten
    rw [hi, hslot] at hslotb
    obtain ⟨hdc, hg⟩ := NodeSlot.mk.inj (Option.some.inj hslotb)
    have hgen : g = g' := by
      rw [hg, hid']
      rfl
    have hlevel : d.op.level = c.op.level := by
      rw [hdc]
      split
      · next hyi => rw [h.constant.level_eq, h.eq_of_index (node_of_live hc) (hi.trans hyi)]
      · rfl
    have hxy : x = y := by rw [hid, hid', hi, hgen, hlevel]
    subst hxy
    exact ⟨c, hc, hdc.symm⟩
  · rintro ⟨c, hc, rfl⟩
    obtain ⟨hfree, g, hslot, hid⟩ := IrArena.mem_liveNodes.mp hc
    refine IrArena.mem_liveNodes.mpr ⟨?_, g, ?_, ?_⟩
    · rw [h.result]
      exact hfree
    · have hb := slot_of_node (h.node (node_of_live hc))
      rw [hb, hid]
      rfl
    · rw [hid]
      split
      · next hi =>
        rw [← hid] at hi
        rw [h.constant.level_eq, h.eq_of_index (node_of_live hc) hi]
        exact hid.symm ▸ rfl
      · rfl

theorem linksOk (h : Write a b id n m) (hl : LinksOk a) : LinksOk b := by
  have hslot : ∀ (i : Nat) (u : NodeSlot), b.slots[i]? = some u →
      ∃ s, a.slots[i]? = some s ∧ u.generation = s.generation ∧
        u.node.nextInRegion = s.node.nextInRegion := by
    intro i u hu
    rw [h.result, mapSlots_slots] at hu
    obtain ⟨s, hs, rfl⟩ := Option.map_eq_some_iff.mp hu
    refine ⟨s, hs, ?_⟩
    split
    · next hi =>
      obtain rfl := List.mem_singleton.mp hi
      rw [slot_of_node h.node_eq] at hs
      cases Option.some.inj hs
      exact ⟨rfl, h.constant.next⟩
    · exact ⟨rfl, rfl⟩
  have hfree : b.nodeFree = a.nodeFree := by rw [h.result]; rfl
  have hlen : b.slots.length = a.slots.length := by rw [h.result]; exact List.length_mapIdx
  have hregions : b.regions = a.regions := by rw [h.result]; rfl
  refine ⟨fun i hi => ?_, hfree ▸ hl.free_nodup, fun i u hu => ?_, fun i u hu => ?_,
    hregions ▸ hl.first⟩
  · rw [hlen]
    exact hl.free_lt i (hfree ▸ hi)
  · obtain ⟨s, hs, hgen, -⟩ := hslot i u hu
    rw [hgen, hfree]
    exact hl.parity i s hs
  · obtain ⟨s, hs, -, hnext⟩ := hslot i u hu
    rw [hnext]
    exact hl.next i s hs

-- ---------------------------------------------------------------------------
-- The verifier
-- ---------------------------------------------------------------------------

theorem effectAhead_eq (h : Write a b id n m) {e : NodeId} {fuel : Nat} :
    effectAhead b e fuel x = effectAhead a e fuel x := by
  induction fuel generalizing x with
  | zero => rfl
  | succ fuel ih =>
    unfold effectAhead
    cases hd : a.node x with
    | error err => simp only [h.node_error hd]
    | ok d =>
      by_cases hi : x.index = id.index
      · obtain rfl := h.eq_of_index hd hi
        simp only [h.node hd, if_pos hi, h.constant.hasEffect_eq, h.constant.next, ih]
      · simp only [h.node hd, if_neg hi, ih]

theorem regionHasEarlierEffect_eq (h : Write a b id n m) {rid : RegionId} {e : NodeId} :
    regionHasEarlierEffect b rid e = regionHasEarlierEffect a rid e := by
  have hcount : b.nodeCount = a.nodeCount := by
    rw [h.result]
    simp [nodeCount, mapSlots]
  have hregion : b.region rid = a.region rid := by rw [h.result]; rfl
  unfold regionHasEarlierEffect
  simp only [hregion, hcount, h.effectAhead_eq]

theorem ownerOk (h : Write a b id n m) {r : Region} (hr : ownerOk a r = true) :
    Verifier.ownerOk b r = true := by
  unfold Verifier.ownerOk at hr ⊢
  cases hd : a.node r.owner with
  | error err =>
    rw [hd] at hr
    cases hr
  | ok d =>
    rw [hd] at hr
    by_cases hi : r.owner.index = id.index
    · -- an owner is an `if`, which does not fold
      obtain rfl := h.eq_of_index hd hi
      simp [h.constant.not_if.1] at hr
    · rw [h.node hd, if_neg hi]
      exact hr

/-- A node that is not written keeps its checks: it may read the constant now,
whose element type is no float where the old one was none. -/
theorem nodeOk_other (h : Write a b id n m) (hok : NodeOk a x d) : NodeOk b x d := by
  refine
    { owns := fun ho => by rw [ownedCount_congr h.sameTree]; exact hok.owns ho
      region := ?_
      arity := hok.arity
      ty := hok.ty
      inputs := fun v hv => ?_
      effect := fun he hnone => by rw [h.regionHasEarlierEffect_eq]; exact hok.effect he hnone }
  · rw [h.result]
    exact hok.region
  · obtain ⟨c, hc⟩ := hok.inputs v hv
    refine ⟨_, hc.not_none, h.node hc.def_eq, hc.slot_eq, ?_, ?_⟩
    · split
      · next hi =>
        obtain rfl := h.eq_of_index hc.def_eq hi
        rcases h.constant.ty with hty | hty
        · rw [hty]
          exact hc.elem
        · rw [hty]
          exact Bool.and_false _
      · exact hc.elem
    · rw [regionDominates_congr h.sameTree]
      split
      · next hi =>
        obtain rfl := h.eq_of_index hc.def_eq hi
        rw [h.constant.region]
        exact hc.dominates
      · exact hc.dominates

theorem nodeOk_self (h : Write a b id n m) (hok : NodeOk a x n) : NodeOk b x m := by
  refine
    { owns := fun ho => absurd ho h.constant.not_if.2
      region := ?_
      arity := h.constant.arity
      ty := fun _ => ?_
      inputs := fun v hv => ?_
      effect := fun he hnone => ?_ }
  · rw [h.constant.region, h.result]
    exact hok.region
  · have hn : n.ty ≠ .none ∧ n.ty ≠ .token := by
      refine hok.ty ?_
      rcases h.constant.elementwise with ⟨u, hop⟩ | ⟨b, hop⟩ <;> rw [hop] <;> rfl
    rcases h.constant.ty with hty | hty
    · rw [hty]
      exact hn
    · rw [hty]
      exact ⟨nofun, nofun⟩
  · rw [h.constant.valueInputs] at hv
    cases hv
  · rw [h.constant.hasEffect_eq] at he
    rw [h.constant.effect] at hnone
    rw [h.constant.region, h.regionHasEarlierEffect_eq]
    exact hok.effect he hnone

theorem verified (h : Write a b id n m) (hv : verify a = .ok ()) : verify b = .ok () := by
  obtain ⟨htree, howners, hnodes⟩ := verify_ok.mp hv
  have hregions : b.regions = a.regions := by rw [h.result]; rfl
  refine verify_ok.mpr ⟨(regionTreeOk_congr h.sameTree).trans htree, fun r hr => ?_,
    fun x d hd => ?_⟩
  · exact (howners r (hregions ▸ hr)).imp_right h.ownerOk
  · obtain ⟨c, hc, rfl⟩ := h.mem_liveNodes.mp hd
    split
    · next hi =>
      obtain rfl := h.eq_of_index (node_of_live hc) hi
      exact h.nodeOk_self (hnodes x c hc)
    · exact h.nodeOk_other (hnodes x c hc)

/-- Where the constant is worth what its node was, every value stays. -/
theorem evaluates {V : Type} {meaning : Meaning V} {y : NodeId} {z : V} (h : Write a b id n m)
    (hval : ∀ z, Evaluates meaning a id z → meaning.apply id.index m [] = z)
    (hy : Evaluates meaning a y z) : Evaluates meaning b y z := by
  induction hy with
  | @node y d zs hlive hd hlen hzs ih =>
    have hliveb : y.index ∈ b.liveSlots := h.liveSlots ▸ hlive
    have hnode := h.node hd
    by_cases hi : y.index = id.index
    · rw [if_pos hi] at hnode
      have hgen : id.generation = y.generation := by
        have hslot := slot_of_node hd
        rw [hi, slot_of_node h.node_eq] at hslot
        exact (NodeSlot.mk.inj (Option.some.inj hslot)).2
      rw [← hval _ ((Evaluates.node hlive hd hlen hzs).respell hi.symm hgen), ← hi]
      refine .node hliveb hnode ?_ fun i u z _ hz => by cases hz
      rw [h.constant.valueInputs]
      rfl
    · rw [if_neg hi] at hnode
      exact .node hliveb hnode hlen ih

end Write

-- ---------------------------------------------------------------------------
-- The run
-- ---------------------------------------------------------------------------

theorem write_of_folded (hn : a.node id = .ok n) (hf : folded libm a n = some m) :
    Write a (a.rewrite id fun _ => m) id n m :=
  ⟨hn, constant_of_folded hf, rewrite_eq hn⟩

/-- What each write of the run keeps, the run keeps. -/
theorem run_induction {P : IrArena → Prop} (hstart : P a)
    (hstep : ∀ l id rest t b n m, a.liveIds = l ++ id :: rest →
      (l.foldl (visit libm) (a, 0)).1 = t → folded libm t n = some m → Write t b id n m →
        P t → P b) : P (run libm a).1 := by
  suffices hprefix : ∀ l rest, a.liveIds = l ++ rest → P (l.foldl (visit libm) (a, 0)).1 from
    hprefix a.liveIds [] (List.append_nil _).symm
  intro l
  induction l using List.reverseRecOn with
  | nil => exact fun _ _ => hstart
  | append_singleton l id ih =>
    intro rest hl
    have hl' : a.liveIds = l ++ id :: rest := by simpa using hl
    have hbefore := ih _ hl'
    rw [List.foldl_append, List.foldl_cons, List.foldl_nil]
    unfold visit
    split
    · exact hbefore
    · next n hn =>
      split
      · exact hbefore
      · next m hm => exact hstep l id rest _ _ n m hl' rfl hm (write_of_folded hn hm) hbefore

/-- Where no live node folds, the visits change nothing. -/
theorem visits_still (hstill : ∀ id n, (id, n) ∈ a.liveNodes → folded libm a n = none)
    {l : List NodeId} (hl : ∀ id ∈ l, id ∈ a.liveIds) : l.foldl (visit libm) (a, 0) = (a, 0) := by
  induction l with
  | nil => rfl
  | cons id l ih =>
    obtain ⟨⟨y, n⟩, hn, rfl⟩ := List.mem_map.mp (hl id List.mem_cons_self)
    have hvisit : visit libm (a, 0) y = (a, 0) := by
      simp only [visit, node_of_live hn, hstill y n hn]
    rw [List.foldl_cons, hvisit]
    exact ih fun x hx => hl x (List.mem_cons_of_mem _ hx)

theorem run_linksOk (hl : LinksOk a) : LinksOk (run libm a).1 :=
  run_induction hl fun _ _ _ _ _ _ _ _ _ _ hw ht => hw.linksOk ht

theorem run_sameTree : SameTree a (run libm a).1 :=
  run_induction .refl fun _ _ _ _ _ _ _ _ _ _ hw ht => ht.trans hw.sameTree

/-- Folding keeps what the verifier has accepted. -/
theorem run_verify (hv : verify a = .ok ()) : verify (run libm a).1 = .ok () :=
  run_induction hv fun _ _ _ _ _ _ _ _ _ _ hw ht => hw.verified ht

/-- The live nodes keep their handles; each is as before or folded. -/
theorem run_liveNodes :
    (∀ x n, (x, n) ∈ a.liveNodes →
      ∃ m, (x, m) ∈ (run libm a).1.liveNodes ∧ (m = n ∨ Constant n m)) ∧
    ∀ x m, (x, m) ∈ (run libm a).1.liveNodes → ∃ n, (x, n) ∈ a.liveNodes := by
  refine run_induction (P := fun t => (∀ x n, (x, n) ∈ a.liveNodes →
      ∃ m, (x, m) ∈ t.liveNodes ∧ (m = n ∨ Constant n m)) ∧
    ∀ x m, (x, m) ∈ t.liveNodes → ∃ n, (x, n) ∈ a.liveNodes)
    ⟨fun x n hn => ⟨n, hn, .inl rfl⟩, fun x n hn => ⟨n, hn⟩⟩ ?_
  rintro l id rest t b n m - - - hw ⟨hkeep, hold⟩
  refine ⟨fun x c hc => ?_, fun x d hd => ?_⟩
  · obtain ⟨d, hd, hcd⟩ := hkeep x c hc
    refine ⟨_, hw.mem_liveNodes.mpr ⟨d, hd, rfl⟩, ?_⟩
    split
    · next hi =>
      obtain rfl := hw.eq_of_index (node_of_live hd) hi
      rcases hcd with rfl | hcd
      · exact .inr hw.constant
      · -- a constant does not fold again
        obtain ⟨helem, -⟩ := hw.constant
        rcases hcd.const with ⟨v, hv⟩ | ⟨v, hv⟩ <;> rcases helem with ⟨u, hu⟩ | ⟨u, hu⟩ <;>
          rw [hv] at hu <;> cases hu
    · exact hcd
  · obtain ⟨c, hc, -⟩ := hw.mem_liveNodes.mp hd
    exact hold x c hc

end Fold

end Sxla
