import Sxla.Graph.Trim

/-!
# Writing the inputs of live nodes

Passes that redirect uses write every live node through its handle. The
result is the arena with its live nodes mapped; when the map writes inputs
only, the handles, the regions and the walks over their lists are as before.
-/

namespace Sxla

open Checked IrArena Verifier

/-- The fields that the map keeps. -/
structure InputsOnly (f : Node → Node) : Prop where
  op : ∀ n, (f n).op = n.op
  ty : ∀ n, (f n).ty = n.ty
  region : ∀ n, (f n).region = n.region
  next : ∀ n, (f n).nextInRegion = n.nextInRegion
  arity : ∀ n, (f n).inputs.length = n.inputs.length

namespace IrArena

variable {a b : IrArena} {f g : Node → Node} {id x : NodeId} {n n' : Node} {i fuel : Nat}
  {rid : RegionId}

/-- The nodes of the given slots mapped. -/
def mapSlots (a : IrArena) (slots : List Nat) (f : Node → Node) : IrArena :=
  { a with slots := a.slots.mapIdx fun i s =>
    if i ∈ slots then ⟨f s.node, s.generation⟩ else s }

def mapLive (a : IrArena) (f : Node → Node) : IrArena := a.mapSlots a.liveSlots f

-- ---------------------------------------------------------------------------
-- One write after the other
-- ---------------------------------------------------------------------------

theorem mapIdx_self {α : Type} (l : List α) : l.mapIdx (fun _ s => s) = l := by
  refine List.ext_getElem? fun i => ?_
  rw [List.getElem?_mapIdx]
  cases l[i]? <;> rfl

theorem mapSlots_nil : a.mapSlots [] f = a := by
  simp only [mapSlots, List.not_mem_nil, ↓reduceIte, mapIdx_self]

theorem rewrite_eq (h : a.node id = .ok n) : a.rewrite id f = a.mapSlots [id.index] f := by
  have hslot := slot_of_node h
  rw [rewrite, modifyNode, h]
  simp only [Except.map, mapSlots, List.mem_singleton]
  congr 1
  refine List.ext_getElem? fun i => ?_
  rw [List.getElem?_set, List.getElem?_mapIdx]
  split
  · next hi =>
    subst hi
    rw [if_pos (index_lt_of_node h), hslot]
    simp
  · next hi =>
    cases a.slots[i]? with
    | none => rfl
    | some s => simp [Ne.symm hi]

theorem mapSlots_mapSlots {l : List Nat} (hi : i ∉ l) :
    (a.mapSlots [i] f).mapSlots l f = a.mapSlots (i :: l) f := by
  simp only [mapSlots, List.mapIdx_mapIdx]
  congr 1
  refine List.mapIdx_eq_mapIdx_iff.mpr fun j hj => ?_
  by_cases hij : j = i
  · subst hij
    simp [hi]
  · simp [hij]

theorem foldl_rewrite {ids : List NodeId} (hl : ∀ id ∈ ids, ∃ n, a.node id = .ok n)
    (hd : (ids.map (·.index)).Nodup) :
    ids.foldl (fun a id => a.rewrite id f) a = a.mapSlots (ids.map (·.index)) f := by
  induction ids generalizing a with
  | nil => exact mapSlots_nil.symm
  | cons id ids ih =>
    rw [List.map_cons, List.nodup_cons] at hd
    obtain ⟨n, hn⟩ := hl id List.mem_cons_self
    have hrest : ∀ x ∈ ids, ∃ m, (a.rewrite id f).node x = .ok m := by
      intro x hx
      obtain ⟨m, hm⟩ := hl x (List.mem_cons_of_mem _ hx)
      refine ⟨m, ?_⟩
      rw [node_rewrite_ne fun heq => hd.1 (List.mem_map.mpr ⟨x, hx, heq.symm⟩), hm]
    rw [List.foldl_cons, ih hrest hd.2, rewrite_eq hn, mapSlots_mapSlots hd.1]
    rfl

theorem foldl_rewrite_liveIds : a.liveIds.foldl (fun a id => a.rewrite id f) a = a.mapLive f := by
  rw [foldl_rewrite fun id hid => (isLive_of_mem_liveIds hid).2]
  · rw [map_index_liveIds]
    rfl
  · rw [map_index_liveIds]
    exact a.liveSlots_nodup

-- ---------------------------------------------------------------------------
-- The mapped arena
-- ---------------------------------------------------------------------------

theorem mapLive_slots : (a.mapLive f).slots[i]? =
    (a.slots[i]?).map fun s => if i ∈ a.liveSlots then ⟨f s.node, s.generation⟩ else s :=
  List.getElem?_mapIdx

@[simp] theorem mapLive_liveSlots : (a.mapLive f).liveSlots = a.liveSlots := by
  simp [liveSlots, mapLive, mapSlots]

theorem mapLive_mapLive : (a.mapLive f).mapLive g = a.mapLive fun n => g (f n) := by
  simp only [mapLive, mapSlots, List.mapIdx_mapIdx]
  congr 1
  refine List.mapIdx_eq_mapIdx_iff.mpr fun j hj => ?_
  have hlive := @mapLive_liveSlots a f
  simp only [mapLive, mapSlots] at hlive
  simp only [Function.comp, hlive]
  by_cases hj : j ∈ a.liveSlots
  · simp [hj]
  · simp [hj]

theorem mapLive_self : (a.mapLive fun n => n) = a := by
  simp only [mapLive, mapSlots, ite_self, mapIdx_self]

theorem mapLive_node : (a.mapLive f).node x =
    (a.node x).map fun n => if x.index ∈ a.liveSlots then f n else n := by
  simp only [node, mapLive_slots]
  cases a.slots[x.index]? with
  | none => rfl
  | some s =>
    simp only [Option.map_some]
    by_cases hlive : x.index ∈ a.liveSlots
    · simp only [hlive, ↓reduceIte]
      split <;> rfl
    · simp only [hlive, ↓reduceIte]
      split <;> rfl

theorem mapLive_node_ok (h : a.node x = .ok n) : (a.mapLive f).node x =
    .ok (if x.index ∈ a.liveSlots then f n else n) := by
  rw [mapLive_node, h]
  rfl

theorem mem_mapLive_liveNodes (hf : InputsOnly f) :
    (id, n') ∈ (a.mapLive f).liveNodes ↔ ∃ n, (id, n) ∈ a.liveNodes ∧ f n = n' := by
  constructor
  · intro h
    have hlive := index_mem_liveSlots h
    rw [mapLive_liveSlots] at hlive
    obtain ⟨id', n, hn, hi⟩ := exists_live hlive
    obtain ⟨-, g, hslot, hid⟩ := mem_liveNodes.mp h
    obtain ⟨hfree, g', hslot', hid'⟩ := mem_liveNodes.mp hn
    rw [mapLive_slots, ← hi, hslot', Option.map_some, if_pos (hi ▸ hlive)] at hslot
    cases Option.some.inj hslot
    refine ⟨n, ?_, rfl⟩
    rw [hid, hf.op, ← hi, ← hid']
    exact hn
  · rintro ⟨n, hn, rfl⟩
    have hlive := index_mem_liveSlots hn
    obtain ⟨hfree, g, hslot, hid⟩ := mem_liveNodes.mp hn
    refine mem_liveNodes.mpr ⟨hfree, g, ?_, by rw [hf.op]; exact hid⟩
    rw [mapLive_slots, hslot, Option.map_some, if_pos hlive]

theorem mapLive_linksOk (h : LinksOk a) (hf : InputsOnly f) : LinksOk (a.mapLive f) := by
  have hslot : ∀ (i : Nat) (t : NodeSlot), (a.mapLive f).slots[i]? = some t →
      ∃ s, a.slots[i]? = some s ∧ t.generation = s.generation ∧
        t.node.nextInRegion = s.node.nextInRegion := by
    intro i t ht
    rw [mapLive_slots] at ht
    obtain ⟨s, hs, rfl⟩ := Option.map_eq_some_iff.mp ht
    refine ⟨s, hs, ?_⟩
    split
    · exact ⟨rfl, hf.next _⟩
    · exact ⟨rfl, rfl⟩
  refine ⟨fun i hi => ?_, h.free_nodup, fun i t ht => ?_, fun i t ht => ?_, h.first⟩
  · exact (h.free_lt i hi).trans_eq (List.length_mapIdx).symm
  · obtain ⟨s, hs, hgen, -⟩ := hslot i t ht
    rw [hgen]
    exact h.parity i s hs
  · obtain ⟨s, hs, -, hnext⟩ := hslot i t ht
    rw [hnext]
    exact h.next i s hs

theorem mapLive_sameTree : SameTree a (a.mapLive f) := ⟨rfl, rfl⟩

theorem mapLive_isLive : (a.mapLive f).IsLive x ↔ a.IsLive x := by
  simp only [IsLive, mapLive_node]
  refine and_congr_right fun _ => ?_
  cases a.node x <;> simp [Except.map]

end IrArena

-- ---------------------------------------------------------------------------
-- The checks of `verify`
-- ---------------------------------------------------------------------------

namespace Verifier

variable {a b : IrArena} {f : Node → Node} {id x : NodeId} {n : Node} {fuel : Nat}
  {rid : RegionId}

theorem mapLive_fields (hf : InputsOnly f) (h : a.node x = .ok n) :
    ∃ m, (a.mapLive f).node x = .ok m ∧ m.op = n.op ∧ m.ty = n.ty ∧ m.region = n.region ∧
      m.nextInRegion = n.nextInRegion := by
  refine ⟨_, mapLive_node_ok h, ?_⟩
  split
  · exact ⟨hf.op n, hf.ty n, hf.region n, hf.next n⟩
  · exact ⟨rfl, rfl, rfl, rfl⟩

/-- The walk over a region's list reads ops and links only. -/
theorem effectAhead_congr (h : ∀ x, (b.node x).map (fun n => (n.op, n.nextInRegion)) =
    (a.node x).map fun n => (n.op, n.nextInRegion)) :
    effectAhead b id fuel x = effectAhead a id fuel x := by
  induction fuel generalizing x with
  | zero => rfl
  | succ fuel ih =>
    have hx := h x
    unfold effectAhead
    cases ha : a.node x with
    | error e =>
      rw [ha] at hx
      cases hb : b.node x with
      | error e' => rfl
      | ok m =>
        rw [hb] at hx
        cases hx
    | ok n =>
      rw [ha] at hx
      obtain ⟨m, hm, heq⟩ := map_ok.mp hx
      obtain ⟨hop, hnext⟩ := Prod.mk.inj heq
      simp only [hm, hop, hnext, ih]

theorem effectAhead_mapLive (hf : InputsOnly f) :
    effectAhead (a.mapLive f) id fuel x = effectAhead a id fuel x := by
  refine effectAhead_congr fun x => ?_
  rw [mapLive_node]
  cases a.node x with
  | error e => rfl
  | ok n =>
    simp only [Except.map]
    split
    · rw [hf.op, hf.next]
    · rfl

theorem regionHasEarlierEffect_mapLive (hf : InputsOnly f) :
    regionHasEarlierEffect (a.mapLive f) rid id = regionHasEarlierEffect a rid id := by
  have hcount : (a.mapLive f).nodeCount = a.nodeCount := by
    simp [nodeCount, mapLive, mapSlots]
  have hregion : (a.mapLive f).region rid = a.region rid := rfl
  unfold regionHasEarlierEffect
  simp only [hregion, hcount, effectAhead_mapLive hf]

theorem ownerOk_mapLive (hf : InputsOnly f) {r : Region} :
    ownerOk (a.mapLive f) r = ownerOk a r := by
  unfold ownerOk
  cases hn : a.node r.owner with
  | error e => simp only [mapLive_node, hn, Except.map]
  | ok n =>
    obtain ⟨m, hm, hop, -, hregion, -⟩ := mapLive_fields hf hn
    simp only [hm, hop, hregion]

/-- A node stays in order when what it reads now could stand where the values
it read before stood. -/
theorem NodeOk.mapLive (h : NodeOk a id n) (hf : InputsOnly f)
    (hinputs : ∀ v' ∈ (f n).valueInputs, ∃ v ∈ n.valueInputs, ∀ d, InputOk a n v d →
      v'.isNone = false ∧ v'.slot = 0 ∧ ∃ d', a.node v'.node = .ok d' ∧ d'.ty = d.ty ∧
        regionDominates a d'.region n.region = true)
    (heffect : (f n).effectIn.isNone = true → n.effectIn.isNone = true) :
    NodeOk (a.mapLive f) id (f n) where
  owns hop := by
    rw [ownedCount_congr mapLive_sameTree]
    exact h.owns ((hf.op n).symm.trans hop)
  region := by
    rw [hf.region]
    exact h.region
  arity := by
    rw [hf.arity, hf.op]
    exact h.arity
  ty := by
    rw [hf.op, hf.ty]
    exact h.ty
  inputs v' hv' := by
    obtain ⟨v, hv, hall⟩ := hinputs v' hv'
    obtain ⟨d, hd⟩ := h.inputs v hv
    obtain ⟨hnone, hslot, d', hd', hty, hdom⟩ := hall d hd
    obtain ⟨m, hm, -, hmty, hmregion, -⟩ := mapLive_fields hf hd'
    refine ⟨m, hnone, hm, hslot, ?_, ?_⟩
    · rw [hf.op, hf.ty, hmty, hty]
      exact hd.elem
    · rw [regionDominates_congr mapLive_sameTree, hmregion, hf.region]
      exact hdom
  effect heff hnone := by
    rw [hf.region, regionHasEarlierEffect_mapLive hf]
    rw [hf.op] at heff
    exact h.effect heff (heffect hnone)

end Verifier

end Sxla
