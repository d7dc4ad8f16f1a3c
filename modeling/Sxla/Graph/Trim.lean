import Mathlib.Data.List.FinRange
import Sxla.Ir.Links

/-!
# Removals and the verifier

Removals take nothing from the remaining nodes but links, so the checks of
`verify` have the answers they had, except the walk for effectful nodes,
which may now pass fewer nodes. What it finds it found before: the fuel of
the walk is enough for all live nodes.
-/

namespace Sxla

open Checked IrArena Verifier

/-- The walk from `x` meets an effectful node ahead of `e`. -/
inductive Ahead (a : IrArena) (e : NodeId) : NodeId → Prop
  | here {x : NodeId} {n : Node} (hx : x ≠ .NONE) (he : x ≠ e) (hn : a.node x = .ok n)
    (heff : n.op.hasEffect = true) : Ahead a e x
  | next {x : NodeId} {n : Node} (hx : x ≠ .NONE) (he : x ≠ e) (hn : a.node x = .ok n)
    (h : Ahead a e n.nextInRegion) : Ahead a e x

variable {a b c : IrArena} {id e x y : NodeId} {n : Node} {fuel k : Nat} {rid : RegionId}
  {r r' : Region} {i : Nat}

-- ---------------------------------------------------------------------------
-- The walk and its fuel
-- ---------------------------------------------------------------------------

namespace Verifier

theorem effectAhead_succ (hx : x ≠ .NONE) (he : x ≠ e) (hn : a.node x = .ok n) :
    effectAhead a e (fuel + 1) x = (n.op.hasEffect || effectAhead a e fuel n.nextInRegion) := by
  have hnone : x.isNone = false := by simpa [NodeId.isNone] using hx
  simp only [effectAhead, hnone, Bool.false_eq_true, ↓reduceIte, he, hn]
  cases n.op.hasEffect <;> rfl

theorem of_effectAhead (h : effectAhead a e (fuel + 1) x = true) :
    x ≠ .NONE ∧ x ≠ e ∧ ∃ n, a.node x = .ok n ∧
      (n.op.hasEffect || effectAhead a e fuel n.nextInRegion) = true := by
  have hx : x ≠ .NONE := by
    rintro rfl
    cases h
  have he : x ≠ e := by
    rintro rfl
    simp [effectAhead] at h
  cases hn : a.node x with
  | error err => simp [effectAhead, hn] at h
  | ok n =>
    rw [effectAhead_succ hx he hn] at h
    exact ⟨hx, he, n, rfl, h⟩

theorem effectAhead_mono (h : effectAhead a e fuel x = true) (hk : fuel ≤ k) :
    effectAhead a e k x = true := by
  induction fuel generalizing x k with
  | zero => cases h
  | succ fuel ih =>
    obtain ⟨k, rfl⟩ := Nat.exists_eq_succ_of_ne_zero (Nat.ne_zero_of_lt hk)
    obtain ⟨hx, he, n, hn, h⟩ := of_effectAhead h
    rw [effectAhead_succ hx he hn]
    rw [Bool.or_eq_true] at h ⊢
    exact h.imp_right fun h => ih h (Nat.le_of_succ_le_succ hk)

theorem ahead_of_effectAhead (h : effectAhead a e fuel x = true) : Ahead a e x := by
  induction fuel generalizing x with
  | zero => cases h
  | succ fuel ih =>
    obtain ⟨hx, he, n, hn, h⟩ := of_effectAhead h
    rcases Bool.or_eq_true_iff.mp h with heff | hrest
    · exact .here hx he hn heff
    · exact .next hx he hn (ih hrest)

theorem exists_fuel (h : Ahead a e x) : ∃ fuel, effectAhead a e fuel x = true := by
  induction h with
  | here hx he hn heff => exact ⟨1, by rw [effectAhead_succ hx he hn, heff]; rfl⟩
  | next hx he hn _ ih =>
    obtain ⟨fuel, hfuel⟩ := ih
    exact ⟨fuel + 1, by rw [effectAhead_succ hx he hn, hfuel, Bool.or_true]⟩

/-- The least fuel with which the walk finds something. -/
def Needs (a : IrArena) (e : NodeId) (k : Nat) (x : NodeId) : Prop :=
  effectAhead a e k x = true ∧ ∀ j, effectAhead a e j x = true → k ≤ j

theorem exists_needs (h : Ahead a e x) : ∃ k, Needs a e k x := by
  classical
  have hex := exists_fuel h
  exact ⟨Nat.find hex, Nat.find_spec hex, fun j hj => Nat.find_min' hex hj⟩

/-- The walk passes nodes of every lesser need. -/
theorem Needs.lower (h : Needs a e (k + 1) x) (hk : k ≠ 0) :
    ∃ n, a.node x = .ok n ∧ Needs a e k n.nextInRegion := by
  obtain ⟨hx, he, n, hn, hor⟩ := of_effectAhead h.1
  refine ⟨n, hn, ?_, fun j hj => ?_⟩
  · rcases Bool.or_eq_true_iff.mp hor with heff | hrest
    · have hone := h.2 1 (by rw [effectAhead_succ hx he hn, heff]; rfl)
      omega
    · exact hrest
  · have hle := h.2 (j + 1) (by rw [effectAhead_succ hx he hn, hj, Bool.or_true])
    omega

theorem exists_needs_of_le (h : LinksOk a) (hx : Issuable x) (hk : Needs a e k x) {j : Nat}
    (hj : 1 ≤ j) (hjk : j ≤ k) : ∃ y, Issuable y ∧ Needs a e j y := by
  induction k generalizing x with
  | zero => omega
  | succ k ih =>
    rcases Nat.lt_or_eq_of_le hjk with hlt | rfl
    · obtain ⟨n, hn, hnext⟩ := hk.lower (by omega)
      exact ih (h.next _ _ (slot_of_node hn)) hnext (Nat.le_of_lt_succ hlt)
    · exact ⟨x, hx, hk⟩

/-- Handles of one slot need the same fuel. -/
theorem Needs.unique {j : Nat} (hx : Needs a e k x) (hy : Needs a e j y) (hk : 1 ≤ k) (hj : 1 ≤ j)
    (hi : x.index = y.index) : k = j := by
  obtain ⟨k, rfl⟩ := Nat.exists_eq_succ_of_ne_zero (Nat.ne_zero_of_lt hk)
  obtain ⟨j, rfl⟩ := Nat.exists_eq_succ_of_ne_zero (Nat.ne_zero_of_lt hj)
  obtain ⟨hxn, hxe, n, hn, hx'⟩ := of_effectAhead hx.1
  obtain ⟨hyn, hye, m, hm, hy'⟩ := of_effectAhead hy.1
  have hslot := slot_of_node hn
  rw [hi, slot_of_node hm] at hslot
  cases (NodeSlot.mk.inj (Option.some.inj hslot)).1
  refine Nat.le_antisymm (hx.2 _ ?_) (hy.2 _ ?_)
  · rw [Nat.succ_eq_add_one, effectAhead_succ hxn hxe hn]
    exact hy'
  · rw [Nat.succ_eq_add_one, effectAhead_succ hyn hye hm]
    exact hx'

theorem Needs.le_nodeCount (h : LinksOk a) (hx : Issuable x) (hk : Needs a e k x) :
    k ≤ a.nodeCount := by
  have hstep : ∀ j : Fin k, ∃ y, Issuable y ∧ Needs a e (j + 1) y := fun j =>
    exists_needs_of_le h hx hk (Nat.le_add_left 1 j) j.isLt
  choose y hy hneeds using hstep
  have hlive : ∀ j, (y j).index ∈ a.liveSlots := by
    intro j
    obtain ⟨hne, -, n, hn, -⟩ := of_effectAhead (hneeds j).1
    exact h.live (hy j) hne hn
  have hinj : Function.Injective fun j => (y j).index := by
    intro i j hij
    have heq := (hneeds i).unique (hneeds j) (by omega) (by omega) hij
    exact Fin.ext (Nat.succ_injective heq)
  have hsub : List.ofFn (fun j => (y j).index) ⊆ a.liveSlots := by
    intro i hi
    obtain ⟨j, rfl⟩ := List.mem_ofFn.mp hi
    exact hlive j
  have hlen := ((List.nodup_ofFn.mpr hinj).subperm hsub).length_le
  rwa [List.length_ofFn, ← nodeCount_eq h.free_lt h.free_nodup] at hlen

/-- The fuel of the check is enough. -/
theorem regionHasEarlierEffect_iff (h : LinksOk a) (hr : a.region rid = .ok r) :
    regionHasEarlierEffect a rid e = true ↔ Ahead a e r.firstNode := by
  simp only [regionHasEarlierEffect, hr]
  refine ⟨ahead_of_effectAhead, fun hahead => ?_⟩
  obtain ⟨k, hk⟩ := exists_needs hahead
  have hle := hk.le_nodeCount h (h.first _ _ (region_eq_ok.mp hr).2.1)
  exact effectAhead_mono hk.1 (by omega)

end Verifier

-- ---------------------------------------------------------------------------
-- Removals
-- ---------------------------------------------------------------------------

/-- `b` is left of `a` by removals. -/
structure Trimmed (a b : IrArena) : Prop where
  tree : SameTree a b
  length : b.slots.length = a.slots.length
  live : ∀ i ∈ b.liveSlots, i ∈ a.liveSlots
  kept : ∀ i, (i ∈ a.liveSlots → i ∈ b.liveSlots) →
    b.slots[i]?.map (·.unlinked) = a.slots[i]?.map (·.unlinked)
  ahead : ∀ e, e.index ∈ b.liveSlots → ∀ (j : Nat) (r r' : Region), a.regions[j]? = some r →
    b.regions[j]? = some r' → Ahead b e r'.firstNode → Ahead a e r.firstNode

theorem Trimmed.refl : Trimmed a a := by
  refine ⟨.refl, rfl, fun _ h => h, fun _ _ => rfl, fun e _ j r r' hr hr' h => ?_⟩
  cases Option.some.inj (hr.symm.trans hr')
  exact h

theorem Trimmed.trans (h : Trimmed a b) (h' : Trimmed b c) : Trimmed a c := by
  refine ⟨h.tree.trans h'.tree, h'.length.trans h.length, fun i hi => h.live i (h'.live i hi),
    fun i hi => ?_, fun e he j r r' hr hr' hahead => ?_⟩
  · rw [h'.kept i fun hb => hi (h.live i hb), h.kept i fun ha => h'.live i (hi ha)]
  · have hlen : b.regions.length = a.regions.length := by
      simpa using congrArg List.length h.tree.regions
    have hb := List.getElem?_eq_getElem (hlen ▸ (List.getElem?_eq_some_iff.mp hr).1 :
      j < b.regions.length)
    exact h.ahead e (h'.live _ he) j r _ hr hb (h'.ahead e he j _ r' hb hr' hahead)

theorem removeNode_trimmed (h : LinksOk a) (hlive : a.IsLive id) (hid : id ≠ .NONE)
    (hn : a.node id = .ok n) (hr : a.removeNode id = .ok b) :
    Trimmed a b ∧ ∀ i, i ∈ b.liveSlots ↔ i ∈ a.liveSlots ∧ i ≠ id.index := by
  obtain ⟨n', hn', hex⟩ := removeNode_excised hr
  cases Except.ok.inj (hn.symm.trans hn')
  have hslots : ∀ i, i ∈ b.liveSlots ↔ i ∈ a.liveSlots ∧ i ≠ id.index := by
    intro i
    rw [mem_liveSlots, mem_liveSlots, hex.length, hex.free, List.mem_cons, not_or]
    tauto
  have hb := h.remove hlive hr
  -- the walk of `b`, with the removed node put back where it skips it
  have hwalk : ∀ e, e.index ≠ id.index → ∀ x, Ahead b e x → Issuable x → Ahead a e x := by
    intro e he x hx
    induction hx with
    | @here x m hx hxe hm heff =>
      intro hiss
      have hxi := ((hslots x.index).mp (hb.live hiss hx hm)).2
      obtain ⟨s, hs, heq, -⟩ := hex.slot _ _ hxi (slot_of_node hm)
      obtain ⟨hgen, hop, -, -⟩ := unlinked_eq heq
      have hnode : a.node x = .ok s.node := by simp [IrArena.node, hs, ← hgen]
      exact .here hx hxe hnode (by rw [← hop]; exact heff)
    | @next x m hx hxe hm _ ih =>
      intro hiss
      have hxi := ((hslots x.index).mp (hb.live hiss hx hm)).2
      obtain ⟨s, hs, heq, hpast⟩ := hex.slot _ _ hxi (slot_of_node hm)
      have hnode : a.node x = .ok s.node := by simp [IrArena.node, hs, ← (unlinked_eq heq).1]
      have hrest := ih (hb.next _ _ (slot_of_node hm))
      refine .next hx hxe hnode ?_
      rcases hpast with hsame | ⟨hskip, hnext⟩
      · rw [← hsame]
        exact hrest
      · rw [hskip]
        exact .next hid (fun heq => he (heq ▸ rfl)) hn (hnext ▸ hrest)
  refine ⟨⟨removeNode_sameTree hr, hex.length, fun i hi => ((hslots i).mp hi).1, fun i hi => ?_,
    fun e he j r r' hr hr' hahead => ?_⟩, hslots⟩
  · have hne : i ≠ id.index := by
      rintro rfl
      exact ((hslots _).mp (hi hlive.index_mem)).2 rfl
    exact (removeNode_ok hr).others i hne
  · have hei := ((hslots e.index).mp he).2
    have hrest := hwalk e hei _ hahead (hb.first j r' hr')
    obtain ⟨r₀, hr₀, -, hpast⟩ := hex.region j r' hr'
    cases Option.some.inj (hr.symm.trans hr₀)
    rcases hpast with hsame | ⟨hskip, hnext⟩
    · rw [← hsame]
      exact hrest
    · rw [hskip]
      exact .next hid (fun heq => hei (heq ▸ rfl)) hn (hnext ▸ hrest)

-- ---------------------------------------------------------------------------
-- The checks of `verify`
-- ---------------------------------------------------------------------------

namespace IrArena

theorem SameTree.regionCount (h : SameTree a b) : b.regionCount = a.regionCount := by
  simpa [IrArena.regionCount] using congrArg List.length h.regions

/-- A handle names the same region, apart from its list. -/
theorem SameTree.region (h : SameTree a b) (x : RegionId) :
    (∃ r r', a.region x = .ok r ∧ b.region x = .ok r' ∧ r'.unlisted = r.unlisted) ∨
      ∃ err err', a.region x = .error err ∧ b.region x = .error err' := by
  have hget := congrArg (·[x.index]?) h.regions
  simp only [List.getElem?_map] at hget
  cases ha : a.region x with
  | ok r =>
    obtain ⟨hnone, hr, hgen⟩ := region_eq_ok.mp ha
    rw [hr, Option.map_some] at hget
    obtain ⟨r', hr', heq⟩ := Option.map_eq_some_iff.mp hget
    have hgen' : r'.generation = r.generation := congrArg (·.generation) heq
    exact .inl ⟨r, r', rfl, region_eq_ok.mpr ⟨hnone, hr', hgen'.trans hgen⟩, heq⟩
  | error err =>
    cases hb : b.region x with
    | error err' => exact .inr ⟨err, err', rfl, rfl⟩
    | ok r' =>
      obtain ⟨hnone, hr', hgen⟩ := region_eq_ok.mp hb
      rw [hr', Option.map_some, eq_comm] at hget
      obtain ⟨r, hr, heq⟩ := Option.map_eq_some_iff.mp hget
      have hgen' : r.generation = r'.generation := congrArg (·.generation) heq
      rw [region_eq_ok.mpr ⟨hnone, hr, hgen'.trans hgen⟩] at ha
      cases ha

end IrArena

theorem parent_eq (h : r'.unlisted = r.unlisted) : r'.parent = r.parent := congrArg (·.parent) h

theorem owner_eq (h : r'.unlisted = r.unlisted) : r'.owner = r.owner := congrArg (·.owner) h

namespace Verifier

variable {anc cur : RegionId}

theorem parentChainEnds_congr (h : SameTree a b) :
    parentChainEnds b fuel cur = parentChainEnds a fuel cur := by
  induction fuel generalizing cur with
  | zero => rfl
  | succ fuel ih =>
    unfold parentChainEnds
    rcases h.region cur with ⟨r, r', ha, hb, heq⟩ | ⟨err, err', ha, hb⟩
    · simp only [ha, hb, parent_eq heq, ih]
    · simp only [ha, hb]

theorem regionTreeOk_congr (h : SameTree a b) : regionTreeOk b = regionTreeOk a := by
  unfold regionTreeOk
  rw [h.regionCount]
  congr 1
  funext slot
  rcases h.region (.pack slot 0) with ⟨r, r', ha, hb, -⟩ | ⟨err, err', ha, hb⟩
  · simp only [ha, hb, parentChainEnds_congr h]
  · simp only [ha, hb]

theorem reaches_congr (h : SameTree a b) : reaches b anc fuel cur = reaches a anc fuel cur := by
  induction fuel generalizing cur with
  | zero => rfl
  | succ fuel ih =>
    unfold reaches
    rcases h.region cur with ⟨r, r', ha, hb, heq⟩ | ⟨err, err', ha, hb⟩
    · simp only [ha, hb, parent_eq heq, ih]
    · simp only [ha, hb]

theorem regionDominates_congr (h : SameTree a b) :
    regionDominates b anc cur = regionDominates a anc cur := by
  unfold regionDominates
  rw [h.regionCount, reaches_congr h]

theorem ownedCount_congr (h : SameTree a b) : ownedCount b i = ownedCount a i := by
  have hcount : ∀ l : List Region,
      l.countP (fun r => !r.owner.isNone && r.owner.index == i) =
        (l.map (·.unlisted)).countP fun r => !r.owner.isNone && r.owner.index == i := by
    intro l
    rw [List.countP_map]
    rfl
  rw [ownedCount, ownedCount, hcount b.regions, hcount a.regions, h.regions]

end Verifier

/-- A node apart from its link. -/
def Node.unlinked (n : Node) : Node := { n with nextInRegion := .NONE }

theorem Node.unlinked_fields {m n : Node} (h : m.unlinked = n.unlinked) :
    m.op = n.op ∧ m.ty = n.ty ∧ m.region = n.region ∧ m.inputs = n.inputs ∧
      m.effectIn = n.effectIn := by
  simp only [Node.unlinked, Node.mk.injEq] at h
  exact ⟨h.1, h.2.1, h.2.2.2.1, h.2.2.2.2.1, h.2.2.2.2.2.1⟩

theorem Trimmed.node (h : Trimmed a b) (hi : x.index ∈ a.liveSlots → x.index ∈ b.liveSlots)
    (hn : a.node x = .ok n) : ∃ m, b.node x = .ok m ∧ m.unlinked = n.unlinked := by
  have hkept := h.kept _ hi
  rw [slot_of_node hn, Option.map_some] at hkept
  obtain ⟨t, ht, heq⟩ := Option.map_eq_some_iff.mp hkept
  obtain ⟨hnode, hgen⟩ := NodeSlot.mk.inj heq
  have hgen : t.generation = x.generation := hgen
  exact ⟨t.node, by simp [IrArena.node, ht, hgen], hnode⟩

theorem Trimmed.live_of_live (h : Trimmed a b) (hm : (id, n) ∈ b.liveNodes) :
    ∃ m, (id, m) ∈ a.liveNodes ∧ n.unlinked = m.unlinked := by
  have hlive := index_mem_liveSlots hm
  obtain ⟨hfree, g, hs, hid⟩ := mem_liveNodes.mp hm
  have hkept := h.kept id.index fun _ => hlive
  rw [hs, Option.map_some, eq_comm] at hkept
  obtain ⟨t, ht, heq⟩ := Option.map_eq_some_iff.mp hkept
  obtain ⟨hnode, hgen⟩ := NodeSlot.mk.inj heq
  have hgen : t.generation = g := hgen
  have hnode : t.node.unlinked = n.unlinked := hnode
  refine ⟨t.node, mem_liveNodes.mpr ⟨?_, t.generation, ht, ?_⟩, hnode.symm⟩
  · exact (mem_liveSlots.mp (h.live _ hlive)).2
  · rw [hgen, (Node.unlinked_fields hnode).1]
    exact hid

/-- The owner of a region stays one where the `If` nodes stay. -/
theorem Trimmed.owner_ok {r r' : Region} (h : Trimmed a b)
    (hif : ∀ id n, (id, n) ∈ a.liveNodes → n.op = .ifOp → id.index ∈ b.liveSlots)
    (heq : r'.unlisted = r.unlisted) (hok : ownerOk a r = true) : ownerOk b r' = true := by
  unfold ownerOk at hok ⊢
  rw [owner_eq heq, parent_eq heq]
  cases hn : a.node r.owner with
  | error err => simp [hn] at hok
  | ok n =>
    rw [hn] at hok
    simp only [Bool.and_eq_true, beq_iff_eq] at hok
    have hstays : r.owner.index ∈ a.liveSlots → r.owner.index ∈ b.liveSlots := by
      intro hlive
      obtain ⟨id, m, hm, hi⟩ := exists_live hlive
      have hslot := slot_of_node hn
      rw [← hi, slot_of_node (node_of_live hm)] at hslot
      cases (NodeSlot.mk.inj (Option.some.inj hslot)).1
      rw [← hi]
      exact hif id _ hm hok.1
    obtain ⟨m, hm, hmn⟩ := h.node hstays hn
    obtain ⟨hop, -, hregion, -, -⟩ := Node.unlinked_fields hmn
    simp [hm, hop, hregion, hok.1, hok.2]

/-- A node that stays keeps its checks where its operands stay. -/
theorem Trimmed.node_ok {n n' : Node} (h : Trimmed a b) (ha : LinksOk a) (hb : LinksOk b)
    (hlive : id.index ∈ b.liveSlots) (hnn : n'.unlinked = n.unlinked) (hok : NodeOk a id n)
    (hclosed : ∀ v ∈ n.valueInputs, v.node.index ∈ a.liveSlots → v.node.index ∈ b.liveSlots) :
    NodeOk b id n' := by
  obtain ⟨hop, hty, hregion, hinputs, heffect⟩ := Node.unlinked_fields hnn
  have hregion_ok : n.region.isNone = true ∨ ∃ r, b.region n.region = .ok r := by
    refine hok.region.imp_right fun ⟨r, hr⟩ => ?_
    rcases h.tree.region n.region with ⟨r₁, r', _, hr', -⟩ | ⟨err, err', herr, -⟩
    · exact ⟨r', hr'⟩
    · rw [hr] at herr
      cases herr
  have hvalue : n'.valueInputs = n.valueInputs := by rw [Node.valueInputs, hinputs]; rfl
  refine
    { owns := fun ho => by rw [ownedCount_congr h.tree]; exact hok.owns (hop ▸ ho)
      region := by rw [hregion]; exact hregion_ok
      arity := by rw [hinputs, hop]; exact hok.arity
      ty := by rw [hop, hty]; exact hok.ty
      inputs := fun v hv => ?_
      effect := fun he hnone => ?_ }
  · rw [hvalue] at hv
    obtain ⟨d, hin⟩ := hok.inputs v hv
    obtain ⟨m, hm, hmd⟩ := h.node (hclosed v hv) hin.def_eq
    obtain ⟨-, hmty, hmregion, -, -⟩ := Node.unlinked_fields hmd
    refine ⟨m, hin.not_none, hm, hin.slot_eq, ?_, ?_⟩
    · rw [hop, hty, hmty]
      exact hin.elem
    · rw [regionDominates_congr h.tree, hmregion, hregion]
      exact hin.dominates
  · rw [hop] at he
    rw [heffect] at hnone
    rw [hregion]
    have hold := hok.effect he hnone
    rcases h.tree.region n.region with ⟨r, r', hr, hr', -⟩ | ⟨err, err', -, herr⟩
    · by_contra hahead
      rw [Bool.not_eq_false, regionHasEarlierEffect_iff hb hr'] at hahead
      have hold' := h.ahead id hlive _ r r' (region_eq_ok.mp hr).2.1 (region_eq_ok.mp hr').2.1
        hahead
      rw [← regionHasEarlierEffect_iff ha hr, hold] at hold'
      cases hold'
    · exact regionHasEarlierEffect_of_error (by rw [herr]; rfl)

/-- What is left is accepted when the `if` nodes stay, and each node that is left
was in order and keeps what it reads. -/
theorem Trimmed.verify_left (h : Trimmed a b) (ha : LinksOk a) (hb : LinksOk b)
    (htree : regionTreeOk a = true)
    (howners : ∀ r ∈ a.regions, r.owner.isNone = true ∨ ownerOk a r = true)
    (hnodes : ∀ id n, (id, n) ∈ a.liveNodes → id.index ∈ b.liveSlots → NodeOk a id n)
    (hif : ∀ id n, (id, n) ∈ a.liveNodes → n.op = .ifOp → id.index ∈ b.liveSlots)
    (hclosed : ∀ id n, (id, n) ∈ a.liveNodes → id.index ∈ b.liveSlots →
      ∀ v ∈ n.valueInputs, v.node.index ∈ a.liveSlots → v.node.index ∈ b.liveSlots) :
    verify b = .ok () := by
  refine verify_ok.mpr ⟨(regionTreeOk_congr h.tree).trans htree, fun r' hr' => ?_,
    fun id n' hn' => ?_⟩
  · obtain ⟨j, hj⟩ := List.getElem?_of_mem hr'
    have hget := congrArg (·[j]?) h.tree.regions
    simp only [List.getElem?_map, hj, Option.map_some] at hget
    obtain ⟨r, hr, heq⟩ := Option.map_eq_some_iff.mp hget.symm
    rw [owner_eq heq.symm]
    exact (howners r (List.mem_of_getElem? hr)).imp_right (h.owner_ok hif heq.symm)
  · obtain ⟨n, hn, hnn⟩ := h.live_of_live hn'
    have hlive := index_mem_liveSlots hn'
    exact h.node_ok ha hb hlive hnn (hnodes id n hn hlive) (hclosed id n hn hlive)

theorem Trimmed.verify (h : Trimmed a b) (ha : LinksOk a) (hb : LinksOk b)
    (hv : verify a = .ok ())
    (hif : ∀ id n, (id, n) ∈ a.liveNodes → n.op = .ifOp → id.index ∈ b.liveSlots)
    (hclosed : ∀ id n, (id, n) ∈ a.liveNodes → id.index ∈ b.liveSlots →
      ∀ v ∈ n.valueInputs, v.node.index ∈ a.liveSlots → v.node.index ∈ b.liveSlots) :
    verify b = .ok () := by
  obtain ⟨htree, howners, hnodes⟩ := verify_ok.mp hv
  exact h.verify_left ha hb htree howners (fun id n hn _ => hnodes id n hn) hif hclosed

end Sxla
