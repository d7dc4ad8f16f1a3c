import Sxla.Ir.RegionLists

/-!
# The effect-chain check

`verify_node` looks for an earlier effectful node in a list that is kept
newest first, from its head to the queried node. What it meets are the nodes
inserted later. An effectful node without an effect input is reported
exactly when it is not the last one inserted into its region.
-/

namespace Sxla

open Checked Linked Verifier

namespace IrArena

def effectful (a : IrArena) (id : NodeId) : Bool :=
  match a.node id with
  | .ok n => n.op.hasEffect
  | .error _ => false

def effectInOf (a : IrArena) (id : NodeId) : ValueId :=
  match a.node id with
  | .ok n => n.effectIn
  | .error _ => .NONE

end IrArena

/-- The first node has no effect input, every later one consumes the token of
the one before it. -/
def LinearChain (a : IrArena) (es : List NodeId) : Prop :=
  (∀ id ∈ es.head?, (a.effectInOf id).isNone = true) ∧
    es.IsChain fun p q => (a.effectInOf q).node = p

/-- What `verify_node` looks at ahead of the effect chain. -/
def WellTyped (a : IrArena) (id : NodeId) : Prop :=
  ∃ n, a.node id = .ok n ∧ n.nInputs = expectedArity n.op ∧
    (producesValue n.op = true → n.ty ≠ .none ∧ n.ty ≠ .token) ∧
    ∀ v ∈ n.valueInputs, checkInput a id n v = none

def Reported (a : IrArena) (id : NodeId) : Prop :=
  ∃ n, a.node id = .ok n ∧ verifyNode a id n = some (.effectChainBroken id)

namespace Listing

/-- The effectful nodes of a region, in the order of their insertion. -/
def effects (s : Listing) (region : RegionId) : List NodeId :=
  ((s.linked.filter (s.arena.inRegion region.index)).filter s.arena.effectful).reverse

/-- The arenas that new regions, insertions, writes of effect inputs and
removals of inserted nodes leave. -/
inductive Grown (nodes regions : Nat) : Listing → Prop
  | start : Grown nodes regions (start nodes regions)
  | newRegion {s : Listing} {parent r : RegionId} {owner : NodeId} {a : IrArena}
      (h : Grown nodes regions s) (hr : s.arena.newRegion parent owner = .ok (r, a)) :
      Grown nodes regions { s with arena := a }
  | insert {s : Listing} {region : RegionId} {n : Node} {id : NodeId} {a : IrArena}
      (h : Grown nodes regions s) (hi : s.arena.insertNode region n = .ok (id, a)) :
      Grown nodes regions ⟨a, id :: s.linked⟩
  | effect {s : Listing} {id : NodeId} {effect : ValueId} {a : IrArena}
      (h : Grown nodes regions s)
      (hm : s.arena.modifyNode id (fun n => { n with effectIn := effect }) = .ok a) :
      Grown nodes regions { s with arena := a }
  | remove {s : Listing} {id : NodeId} {a : IrArena} (h : Grown nodes regions s)
      (hid : id ∈ s.linked) (hr : s.arena.removeNode id = .ok a) :
      Grown nodes regions ⟨a, s.without id⟩

variable {s : Listing} {a : IrArena} {id x : NodeId} {n : Node} {region : RegionId} {r : Region}
  {l pre post es : List NodeId} {nodes regions fuel : Nat}

-- ---------------------------------------------------------------------------
-- The invariant of the lists
-- ---------------------------------------------------------------------------

theorem Grown.inv (h : Grown nodes regions s) : Inv s := by
  induction h with
  | start => exact inv_start
  | newRegion _ hr ih => exact ih.newRegion hr
  | insert _ hi ih => exact ih.insert hi
  | @effect s id effect a _ hm ih =>
    exact ih.sameLinks (modifyNode_sameLinks (f := fun n => { n with effectIn := effect })
      (fun _ => ⟨rfl, rfl⟩) hm)
  | remove _ hid hr ih => exact ih.remove hid hr

/-- The handles of the list are those under which `liveNodes` reports the nodes. -/
def Handles (s : Listing) : Prop :=
  ∀ id ∈ s.linked, ∀ n, s.arena.node id = .ok n → id = .pack id.index id.generation n.op.level

theorem Grown.handles (h : Grown nodes regions s) : Handles s := by
  induction h with
  | start => simp [Handles, Listing.start]
  | @newRegion s parent r owner a _ hr ih =>
    have hslots := Session.newRegion_slots hr
    intro id hid n hn
    refine ih id hid n ?_
    rw [← hn]
    simp only [IrArena.node, hslots.1]
  | @insert s region n id a hg hi ih =>
    have hins := IrArena.insertNode_ok hg.inv.free_lt hi
    have hindex : id.index = s.arena.nextSlot.1 := by rw [hins.id_eq]; rfl
    obtain ⟨r, -, hself⟩ := hins.region_ok
    intro x hx m hm
    rcases List.mem_cons.mp hx with rfl | hx
    · have hslot := IrArena.slot_of_node hm
      rw [hindex, hself] at hslot
      obtain ⟨rfl, -⟩ := NodeSlot.mk.inj (Option.some.inj hslot)
      rw [hins.id_eq]
      rfl
    · have hne : x.index ≠ s.arena.nextSlot.1 := by
        intro heq
        have hnd := (hg.insert hi).inv.nodup
        rw [List.map_cons, List.nodup_cons] at hnd
        exact hnd.1 (hindex ▸ heq ▸ List.mem_map_of_mem hx)
      refine ih x hx m ?_
      rw [← hm]
      simp only [IrArena.node, hins.others x.index hne]
  | @effect s id effect a _ hm ih =>
    obtain ⟨m, hm', rfl⟩ := map_ok.mp hm
    intro x hx n hn
    by_cases hxi : x.index = id.index
    · have hslot := IrArena.slot_of_node hn
      rw [hxi, List.getElem?_set_self (IrArena.index_lt_of_node hm')] at hslot
      obtain ⟨rfl, hgen⟩ := NodeSlot.mk.inj (Option.some.inj hslot)
      refine ih x hx m ?_
      simp [IrArena.node, hxi, IrArena.slot_of_node hm', hgen]
    · refine ih x hx n ?_
      rw [← hn]
      simp only [IrArena.node, List.getElem?_set_ne (Ne.symm hxi)]
  | @remove s id a hg hid hr ih =>
    have hrem := IrArena.removeNode_ok hr
    intro x hx n hn
    rw [without, List.mem_filter, decide_eq_true_eq] at hx
    have hslot := IrArena.slot_of_node hn
    have hother := hrem.others x.index hx.2
    rw [hslot, Option.map_some, eq_comm, Option.map_eq_some_iff] at hother
    obtain ⟨old, hold, heq⟩ := hother
    obtain ⟨hgen, hop, -, -⟩ := IrArena.unlinked_eq heq
    have hnode : s.arena.node x = .ok old.node := by simp [IrArena.node, hold, hgen]
    have hpack := ih x hx.1 old.node hnode
    rw [hop] at hpack
    exact hpack

theorem Grown.live (h : Grown nodes regions s) (hid : id ∈ s.linked)
    (hn : s.arena.node id = .ok n) : (id, n) ∈ s.arena.liveNodes := by
  have hlive := (h.inv.live id.index).mp (List.mem_map_of_mem hid)
  exact IrArena.mem_liveNodes.mpr ⟨(IrArena.mem_liveSlots.mp hlive).2, id.generation,
    IrArena.slot_of_node hn, h.handles id hid n hn⟩

-- ---------------------------------------------------------------------------
-- The walk
-- ---------------------------------------------------------------------------

theorem node_of_nextOf (h : a.nextOf id = some x) :
    ∃ n, a.node id = .ok n ∧ n.nextInRegion = x := by
  unfold IrArena.nextOf at h
  split at h
  · next n hn =>
    cases h
    exact ⟨n, hn, rfl⟩
  · cases h

/-- The walk sees the nodes ahead of the queried one. -/
theorem effectAhead_chain (h : Chain a.nextOf .NONE x (pre ++ id :: post)) (hid : id ∉ pre)
    (hf : pre.length ≤ fuel) : effectAhead a id (fuel + 1) x = pre.any a.effectful := by
  induction pre generalizing x fuel with
  | nil =>
    obtain ⟨y, -, hne, -⟩ := h.tail
    rw [show x = id from h.head_eq]
    simp [effectAhead, NodeId.isNone, hne]
  | cons c pre ih =>
    rw [List.mem_cons, not_or] at hid
    obtain ⟨y, hy, hne, htail⟩ := h.tail
    obtain ⟨m, hm, rfl⟩ := node_of_nextOf hy
    obtain ⟨fuel, rfl⟩ := Nat.exists_eq_succ_of_ne_zero (Nat.ne_zero_of_lt hf)
    have heff : a.effectful c = m.op.hasEffect := by simp [IrArena.effectful, hm]
    have hrest := ih htail hid.2 (Nat.le_of_succ_le_succ hf)
    rw [show x = c from h.head_eq, List.any_cons, heff, effectAhead]
    simp only [NodeId.isNone, beq_eq_false_iff_ne.mpr hne, Bool.false_eq_true, ↓reduceIte,
      Ne.symm hid.1, hm, hrest]
    cases m.op.hasEffect <;> rfl

theorem length_filter_le_nodeCount (h : Inv s) (p : NodeId → Bool) :
    (s.linked.filter p).length ≤ s.arena.nodeCount := by
  have hperm : (s.linked.map (·.index)).Perm s.arena.liveSlots :=
    (List.perm_ext_iff_of_nodup h.nodup s.arena.liveSlots_nodup).mpr h.live
  have hlen := hperm.length_eq
  rw [List.length_map] at hlen
  rw [IrArena.nodeCount_eq h.free_lt h.free_nodup, ← hlen]
  exact List.length_filter_le _ _

/-- For a node of the region's list, the check sees what was inserted later. -/
theorem Inv.earlierEffect (h : Inv s) (hn : s.arena.node id = .ok n)
    (hl : s.linked.filter (s.arena.inRegion n.region.index) = pre ++ id :: post) :
    regionHasEarlierEffect s.arena n.region id = pre.any s.arena.effectful := by
  have hmem : id ∈ s.linked := by
    refine List.mem_of_mem_filter (p := s.arena.inRegion n.region.index) ?_
    rw [hl]
    simp
  obtain ⟨n', r, hn', hr⟩ := h.resolves id hmem
  cases Except.ok.inj (hn.symm.trans hn')
  have hchain := h.chains _ r (region_of_validate hr)
  have hlen := length_filter_le_nodeCount h (s.arena.inRegion n.region.index)
  have hnd : (pre ++ id :: post).Nodup := by
    rw [← hl]
    exact (List.Nodup.of_map _ h.nodup).filter _
  rw [hl] at hchain hlen
  rw [List.length_append, List.length_cons] at hlen
  have hid : id ∉ pre := fun hid =>
    (List.nodup_append.mp hnd).2.2 id hid id List.mem_cons_self rfl
  have hregion : s.arena.region n.region = .ok r := hr
  simp only [regionHasEarlierEffect, hregion]
  exact effectAhead_chain hchain hid (by omega)

-- ---------------------------------------------------------------------------
-- What is reported
-- ---------------------------------------------------------------------------

theorem reported_iff_ahead (h : WellTyped a id) (hn : a.node id = .ok n)
    (hr : a.region n.region = .ok r) :
    Reported a id ↔ n.op.hasEffect = true ∧ n.effectIn.isNone = true ∧
      regionHasEarlierEffect a n.region id = true := by
  obtain ⟨n', hn', harity, hty, hinputs⟩ := h
  cases Except.ok.inj (hn.symm.trans hn')
  have hfind : n.valueInputs.findSome? (checkInput a id n) = none :=
    List.findSome?_eq_none_iff.mpr hinputs
  have htype : (producesValue n.op && (n.ty == .none || n.ty == .token)) = false := by
    cases hp : producesValue n.op with
    | false => rfl
    | true => simpa using hty hp
  have hverify : verifyNode a id n = if n.op.hasEffect && n.effectIn.isNone &&
      regionHasEarlierEffect a n.region id then some (.effectChainBroken id) else none := by
    simp [verifyNode, hr, Except.toBool, harity, htype, hfind]
  constructor
  · rintro ⟨m, hm, hrep⟩
    cases Except.ok.inj (hn.symm.trans hm)
    rw [hverify] at hrep
    split at hrep
    · next hall => simpa [and_assoc] using hall
    · cases hrep
  · rintro ⟨heff, hnone, hahead⟩
    exact ⟨n, hn, by rw [hverify, heff, hnone, hahead]; rfl⟩

theorem any_ahead_iff {eff : NodeId → Bool} (hnd : (pre ++ id :: post).Nodup)
    (hid : eff id = true) :
    pre.any eff = true ↔ ((pre ++ id :: post).filter eff).reverse.getLast? ≠ some id := by
  rw [List.getLast?_reverse, List.filter_append, List.filter_cons_of_pos hid]
  cases hf : pre.filter eff with
  | nil =>
    have hnone : pre.any eff = false := by
      rw [List.any_eq_false]
      intro x hx
      exact List.filter_eq_nil_iff.mp hf x hx
    simp [hnone]
  | cons c rest =>
    have hc : c ∈ pre.filter eff := hf ▸ List.mem_cons_self
    have hne : c ≠ id := fun heq =>
      (List.nodup_append.mp hnd).2.2 c (List.mem_of_mem_filter hc) id List.mem_cons_self heq
    have hany : pre.any eff = true :=
      List.any_eq_true.mpr ⟨c, List.mem_of_mem_filter hc, (List.mem_filter.mp hc).2⟩
    simp [hany, hne]

/-- An effectful node is reported unless it is the last one of its region. -/
theorem Inv.reported_iff (h : Inv s) (hid : id ∈ s.effects region) (ht : WellTyped s.arena id) :
    Reported s.arena id ↔ (s.arena.effectInOf id).isNone = true ∧
      (s.effects region).getLast? ≠ some id := by
  rw [effects, List.mem_reverse, List.mem_filter] at hid
  obtain ⟨hlist, heff⟩ := hid
  obtain ⟨n, r, hn, hr⟩ := h.resolves id (List.mem_of_mem_filter hlist)
  have hindex : n.region.index = region.index := by
    simpa [IrArena.inRegion, hn] using (List.mem_filter.mp hlist).2
  have hop : n.op.hasEffect = true := by simpa [IrArena.effectful, hn] using heff
  have hin : s.arena.effectInOf id = n.effectIn := by simp [IrArena.effectInOf, hn]
  obtain ⟨pre, post, hl⟩ := List.append_of_mem hlist
  have hnd : (pre ++ id :: post).Nodup := by
    rw [← hl]
    exact (List.Nodup.of_map _ h.nodup).filter _
  rw [reported_iff_ahead ht hn hr, h.earlierEffect hn (hindex ▸ hl), hop, hin, effects, hl,
    any_ahead_iff hnd heff]
  simp

theorem effects_nodup (h : Inv s) : (s.effects region).Nodup :=
  List.nodup_reverse.mpr (((List.Nodup.of_map _ h.nodup).filter _).filter _)

theorem Grown.verify_of_reported (h : Grown nodes regions s) (hid : id ∈ s.effects region)
    (hrep : Reported s.arena id) (ht : WellTyped s.arena id) : verify s.arena ≠ .ok () := by
  intro hv
  rw [effects, List.mem_reverse, List.mem_filter] at hid
  have hlinked := List.mem_of_mem_filter hid.1
  obtain ⟨n, r, hn, hr⟩ := h.inv.resolves id hlinked
  have hok := (verify_ok.mp hv).2.2 id n (h.live hlinked hn)
  obtain ⟨hop, hnone, hahead⟩ := (reported_iff_ahead ht hn hr).mp hrep
  simp [hok.effect hop hnone] at hahead

end Listing

open Listing

/-- A linear chain passes when it has one node at most, and the nodes that
break the chain are reported when the last one inserted is not among them. -/
theorem effectChain_iff {nodes regions : Nat} {s : Listing} (h : Grown nodes regions s)
    {region : RegionId} (ht : ∀ id ∈ s.effects region, WellTyped s.arena id) :
    (LinearChain s.arena (s.effects region) →
      ((∀ id ∈ s.effects region, ¬ Reported s.arena id) ↔ (s.effects region).length ≤ 1)) ∧
    ((∀ id ∈ (s.effects region).tail, (s.arena.effectInOf id).isNone = true →
        Reported s.arena id ∧ verify s.arena ≠ .ok ()) ↔
      ((s.effects region).length ≤ 1 ∨
        ∀ id, (s.effects region).getLast? = some id →
          (s.arena.effectInOf id).isNone = false)) := by
  have hinv := h.inv
  have hrep : ∀ id ∈ s.effects region, (Reported s.arena id ↔
      (s.arena.effectInOf id).isNone = true ∧ (s.effects region).getLast? ≠ some id) :=
    fun id hid => hinv.reported_iff hid (ht id hid)
  have hverify : ∀ id ∈ s.effects region, Reported s.arena id → verify s.arena ≠ .ok () :=
    fun id hid hbad => h.verify_of_reported hid hbad (ht id hid)
  have hnd := @effects_nodup s region hinv
  generalize s.effects region = es at *
  rcases es with _ | ⟨first, _ | ⟨second, rest⟩⟩
  · simp
  · have hlast : ¬ Reported s.arena first := fun hf => ((hrep first (by simp)).mp hf).2 rfl
    simp [hlast]
  · have hlong : ¬ (first :: second :: rest).length ≤ 1 := by simp
    have hlast : ∃ last ∈ second :: rest, (first :: second :: rest).getLast? = some last := by
      refine ⟨(second :: rest).getLast (by simp), List.getLast_mem _, ?_⟩
      rw [List.getLast?_cons_cons, List.getLast?_eq_getLast_of_ne_nil (by simp)]
    obtain ⟨last, hmem, hlast⟩ := hlast
    refine ⟨fun hlin => iff_of_false (fun hno => ?_) hlong, ?_⟩
    · refine hno first (by simp) ((hrep first (by simp)).mpr ⟨hlin.1 first rfl, ?_⟩)
      rw [hlast]
      intro heq
      cases heq
      exact (List.nodup_cons.mp hnd).1 hmem
    · rw [List.tail_cons]
      constructor
      · refine fun hall => .inr fun id hid => ?_
        cases hlast.symm.trans hid
        by_contra hnone
        have hbad := (hall last hmem (by simpa using hnone)).1
        exact ((hrep last (List.mem_cons_of_mem _ hmem)).mp hbad).2 hlast
      · rintro (hshort | hlastIn) id hid hnone
        · exact absurd hshort hlong
        · have hid' : id ∈ first :: second :: rest := List.mem_cons_of_mem _ hid
          have hreported : Reported s.arena id := by
            refine (hrep id hid').mpr ⟨hnone, fun heq => ?_⟩
            simp [hlastIn id heq] at hnone
          exact ⟨hreported, hverify id hid' hreported⟩

def sampleAfter (effect : ValueId) : Node :=
  { Node.new (.rng .uniform 1) (.pack 0 0) [] (.scalar .f64) with effectIn := effect }

/-- A sample, and one that consumes its token. -/
def chainedSamples : Listing :=
  let first := IrArena.withCapacity 2 1 |>.insertNode (.pack 0 0) (sampleAfter .NONE)
  let second := first.bind fun (id, a) =>
    a.insertNode (.pack 0 0) (sampleAfter (.fromNode id 0))
  ⟨.built (second.map (·.2)), [.pack 1 0 .graph, .pack 0 0 .graph]⟩

theorem grown_chainedSamples : Grown 2 1 chainedSamples :=
  @Grown.insert 2 1 ⟨_, [.pack 0 0 .graph]⟩ (.pack 0 0)
    (sampleAfter (.fromNode (.pack 0 0 .graph) 0)) (.pack 1 0 .graph) _
    (@Grown.insert 2 1 (.start 2 1) (.pack 0 0) (sampleAfter .NONE) (.pack 0 0 .graph) _ .start rfl)
    rfl

theorem effects_chainedSamples :
    chainedSamples.effects (.pack 0 0) = [.pack 0 0 .graph, .pack 1 0 .graph] := by
  decide

theorem wellTyped_chainedSamples :
    ∀ id ∈ chainedSamples.effects (.pack 0 0), WellTyped chainedSamples.arena id := by
  rw [effects_chainedSamples]
  have hfirst : chainedSamples.arena.node (.pack 0 0 .graph) = .ok (sampleAfter .NONE) := by decide
  have hsecond : chainedSamples.arena.node (.pack 1 0 .graph) =
      .ok { sampleAfter (.fromNode (.pack 0 0 .graph) 0) with
        nextInRegion := .pack 0 0 .graph } := by decide
  intro id hid
  rw [List.mem_cons, List.mem_singleton] at hid
  rcases hid with rfl | rfl
  · exact ⟨_, hfirst, by decide, by decide, by decide⟩
  · exact ⟨_, hsecond, by decide, by decide, by decide⟩

theorem effectChain_iff_chainedSamples :
    (LinearChain chainedSamples.arena (chainedSamples.effects (.pack 0 0)) →
      ((∀ id ∈ chainedSamples.effects (.pack 0 0), ¬ Reported chainedSamples.arena id) ↔
        (chainedSamples.effects (.pack 0 0)).length ≤ 1)) ∧
    ((∀ id ∈ (chainedSamples.effects (.pack 0 0)).tail,
        (chainedSamples.arena.effectInOf id).isNone = true →
        Reported chainedSamples.arena id ∧ verify chainedSamples.arena ≠ .ok ()) ↔
      ((chainedSamples.effects (.pack 0 0)).length ≤ 1 ∨
        ∀ id, (chainedSamples.effects (.pack 0 0)).getLast? = some id →
          (chainedSamples.arena.effectInOf id).isNone = false)) :=
  effectChain_iff grown_chainedSamples wellTyped_chainedSamples

/-- The head of a linear chain of two is reported. -/
theorem chainedSamples_reported : ¬ ∀ (nodes regions : Nat) (s : Listing), Grown nodes regions s →
    ∀ region, (∀ id ∈ s.effects region, WellTyped s.arena id) →
      (LinearChain s.arena (s.effects region) →
        ∀ id ∈ s.effects region, ¬ Reported s.arena id) ∧
      ∀ id ∈ (s.effects region).tail, (s.arena.effectInOf id).isNone = true →
        Reported s.arena id := by
  intro hall
  have hlinear : LinearChain chainedSamples.arena (chainedSamples.effects (.pack 0 0)) := by
    rw [effects_chainedSamples]
    refine ⟨by decide, ?_⟩
    rw [List.isChain_cons_cons]
    exact ⟨by decide, .singleton _⟩
  have hno := (hall 2 1 chainedSamples grown_chainedSamples (.pack 0 0)
    wellTyped_chainedSamples).1 hlinear (.pack 0 0 .graph) (by decide)
  exact hno ⟨sampleAfter .NONE, by decide, by decide⟩

end Sxla
