import Sxla.Graph.Dce
import Sxla.Graph.Trim
import Sxla.Library.Peeling

/-!
# What dead code elimination leaves

The survivors are the greatest set of live nodes whose members are roots,
impure, or named by a member. Uses are recorded by slot. A value input of a
verified node resolves, but an effect input may be outdated and name the slot
of another node by now: such a name keeps a node that nothing uses.
-/

namespace Sxla

open IrArena Peeling Relation

namespace Dce

/-- The values that a node reads, its token included. -/
def consumed (n : Node) : List ValueId :=
  n.valueInputs ++ if n.effectIn.isNone then [] else [n.effectIn]

/-- A live node reads a value with the slot of another live node in its handle. -/
def Names (a : IrArena) (i j : Nat) : Prop :=
  j ∈ a.liveSlots ∧ ∃ id n, (id, n) ∈ a.liveNodes ∧ id.index = i ∧
    ∃ v ∈ consumed n, v.node.index = j

/-- The handle resolves as well: an edge of the value and effect graph. -/
def Uses (a : IrArena) (i j : Nat) : Prop :=
  j ∈ a.liveSlots ∧ ∃ id n, (id, n) ∈ a.liveNodes ∧ id.index = i ∧
    ∃ v ∈ consumed n, v.node.index = j ∧ ∃ m, a.node v.node = .ok m

/-- Roots and impure nodes. -/
def Anchored (a : IrArena) (roots : List NodeId) (i : Nat) : Prop :=
  ∃ id n, (id, n) ∈ a.liveNodes ∧ id.index = i ∧
    ((∃ r ∈ roots, r.index = i) ∨ n.op.isPure = false)

/-- Reached from the roots and the impure nodes. -/
def Alive (a : IrArena) (roots : List NodeId) (i : Nat) : Prop :=
  Reached (Anchored a roots) (Uses a) i

/-- Outdated names do not matter: none leads from a node that is reached to
one that is not, and those that are not reached do not name one another in a
cycle. -/
def OutdatedHarmless (a : IrArena) (roots : List NodeId) : Prop :=
  (∀ i j, Alive a roots i → Names a i j → ¬ Uses a i j → Alive a roots j) ∧
    ∀ i, ¬ TransGen (Adrift (Anchored a roots) (Uses a) (Names a)) i i

variable {a b : IrArena} {roots : List NodeId} {id : NodeId} {n : Node} {i j : Nat}

theorem Uses.names (h : Uses a i j) : Names a i j := by
  obtain ⟨hj, id, n, hn, hi, v, hv, hvj, -⟩ := h
  exact ⟨hj, id, n, hn, hi, v, hv, hvj⟩

theorem Names.live_left (h : Names a i j) : i ∈ a.liveSlots := by
  obtain ⟨-, id, n, hn, rfl, -⟩ := h
  exact index_mem_liveSlots hn

theorem Anchored.live (h : Anchored a roots i) : i ∈ a.liveSlots := by
  obtain ⟨id, n, hn, rfl, -⟩ := h
  exact index_mem_liveSlots hn

-- ---------------------------------------------------------------------------
-- The dead nodes of a round
-- ---------------------------------------------------------------------------

theorem used_iff : used a roots j = true ↔
    (∃ r ∈ roots, r.index = j) ∨
      ∃ id n, (id, n) ∈ a.liveNodes ∧ ∃ v ∈ consumed n, v.node.index = j := by
  have hnode : ∀ n : Node, (n.valueInputs.any (·.node.index == j) ||
      (!n.effectIn.isNone && n.effectIn.node.index == j)) = true ↔
      ∃ v ∈ consumed n, v.node.index = j := by
    intro n
    cases hnone : n.effectIn.isNone <;> simp [consumed, hnone, or_and_right, exists_or]
  simp only [used, Bool.or_eq_true, List.any_eq_true, beq_iff_eq]
  refine or_congr_right ⟨?_, ?_⟩
  · rintro ⟨⟨id, n⟩, hn, hu⟩
    exact ⟨id, n, hn, (hnode n).mp (by simpa using hu)⟩
  · rintro ⟨id, n, hn, hu⟩
    exact ⟨(id, n), hn, by simpa using (hnode n).mpr hu⟩

/-- A live node is dead when nothing anchors or names it. -/
theorem dead_iff (hi : i ∈ a.liveSlots) :
    i ∈ (deadNodes a roots).map (·.index) ↔ ¬ (Anchored a roots i ∨ ∃ x, Names a x i) := by
  obtain ⟨id, n, hn, rfl⟩ := exists_live hi
  have hanchor : Anchored a roots id.index ↔
      (∃ r ∈ roots, r.index = id.index) ∨ n.op.isPure = false := by
    constructor
    · rintro ⟨id', m, hm, hidx, h⟩
      obtain ⟨rfl, rfl⟩ := live_unique hm hn hidx
      exact h
    · exact fun h => ⟨id, n, hn, rfl, h⟩
  have hnamed : (∃ x, Names a x id.index) ↔
      ∃ id' m, (id', m) ∈ a.liveNodes ∧ ∃ v ∈ consumed m, v.node.index = id.index := by
    constructor
    · rintro ⟨x, -, id', m, hm, -, hv⟩
      exact ⟨id', m, hm, hv⟩
    · rintro ⟨id', m, hm, hv⟩
      exact ⟨id'.index, hi, id', m, hm, rfl, hv⟩
  have hused := @used_iff a roots id.index
  rw [← hnamed] at hused
  have hmem : id.index ∈ (deadNodes a roots).map (·.index) ↔
      n.op.isPure = true ∧ used a roots id.index = false := by
    simp only [deadNodes, List.mem_map, List.mem_filter, Bool.and_eq_true, Bool.not_eq_true']
    constructor
    · rintro ⟨_, ⟨⟨id', m⟩, ⟨hm, hp, hu⟩, rfl⟩, hidx⟩
      obtain ⟨rfl, rfl⟩ := live_unique hm hn hidx
      exact ⟨hp, hu⟩
    · exact fun h => ⟨id, ⟨(id, n), ⟨hn, h⟩, rfl⟩, rfl⟩
  rw [hmem, hanchor, ← Bool.not_eq_true (used a roots id.index), hused]
  cases n.op.isPure <;> simp

-- ---------------------------------------------------------------------------
-- Removing the dead nodes
-- ---------------------------------------------------------------------------

theorem removeAll_trimmed {ids : List NodeId} (ha : LinksOk a)
    (hl : ∀ id ∈ ids, a.IsLive id ∧ id ≠ .NONE) (hd : (ids.map (·.index)).Nodup) :
    ∃ b, removeAll a ids = .ok b ∧ Trimmed a b ∧ LinksOk b ∧
      ∀ i, i ∈ b.liveSlots ↔ i ∈ a.liveSlots ∧ i ∉ ids.map (·.index) := by
  induction ids generalizing a with
  | nil => exact ⟨a, rfl, .refl, ha, by simp⟩
  | cons id ids ih =>
    rw [List.map_cons, List.nodup_cons] at hd
    obtain ⟨hlive, hne⟩ := hl id List.mem_cons_self
    obtain ⟨n, hn⟩ := hlive.2
    obtain ⟨c, hc, -, -, hlives⟩ := removeNode_spec hn
    obtain ⟨htrim, hslots⟩ := removeNode_trimmed ha hlive hne hn hc
    have hl' : ∀ x ∈ ids, c.IsLive x ∧ x ≠ .NONE := by
      intro x hx
      obtain ⟨hxl, hxn⟩ := hl x (List.mem_cons_of_mem _ hx)
      exact ⟨(hlives x).mpr ⟨hxl, fun he => hd.1 (he ▸ List.mem_map_of_mem hx)⟩, hxn⟩
    obtain ⟨b, hb, htrim', hlinks, hslots'⟩ := ih (ha.remove hlive hc) hl' hd.2
    refine ⟨b, ?_, htrim.trans htrim', hlinks, fun i => ?_⟩
    · rw [removeAll, List.foldlM_cons, hc]
      exact hb
    · rw [hslots', hslots, List.map_cons, List.mem_cons]
      tauto

end Dce

open Dce

namespace Trimmed

theorem live_kept {a b : IrArena} {id : NodeId} {n : Node} (h : Trimmed a b)
    (hn : (id, n) ∈ a.liveNodes) (hi : id.index ∈ b.liveSlots) :
    ∃ m, (id, m) ∈ b.liveNodes ∧ m.unlinked = n.unlinked := by
  obtain ⟨id', m, hm, hidx⟩ := exists_live hi
  obtain ⟨n', hn', heq⟩ := h.live_of_live hm
  obtain ⟨rfl, rfl⟩ := live_unique hn' hn hidx
  exact ⟨m, hm, heq⟩

theorem consumed_eq {m n : Node} (h : m.unlinked = n.unlinked) : consumed m = consumed n := by
  obtain ⟨-, -, -, hinputs, heffect⟩ := Node.unlinked_fields h
  rw [consumed, consumed, Node.valueInputs, Node.valueInputs, hinputs, heffect]

variable {a b : IrArena} {roots : List NodeId} {i j : Nat}

theorem names_iff (h : Trimmed a b) :
    Names b i j ↔ Names a i j ∧ i ∈ b.liveSlots ∧ j ∈ b.liveSlots := by
  constructor
  · rintro ⟨hj, id, m, hm, rfl, hv⟩
    obtain ⟨n, hn, heq⟩ := h.live_of_live hm
    rw [consumed_eq heq] at hv
    exact ⟨⟨h.live j hj, id, n, hn, rfl, hv⟩, index_mem_liveSlots hm, hj⟩
  · rintro ⟨⟨-, id, n, hn, rfl, hv⟩, hi, hj⟩
    obtain ⟨m, hm, heq⟩ := h.live_kept hn hi
    rw [← consumed_eq heq] at hv
    exact ⟨hj, id, m, hm, rfl, hv⟩

theorem anchored_iff (h : Trimmed a b) :
    Anchored b roots i ↔ Anchored a roots i ∧ i ∈ b.liveSlots := by
  constructor
  · rintro ⟨id, m, hm, rfl, hr⟩
    obtain ⟨n, hn, heq⟩ := h.live_of_live hm
    rw [(Node.unlinked_fields heq).1] at hr
    exact ⟨⟨id, n, hn, rfl, hr⟩, index_mem_liveSlots hm⟩
  · rintro ⟨⟨id, n, hn, rfl, hr⟩, hi⟩
    obtain ⟨m, hm, heq⟩ := h.live_kept hn hi
    rw [← (Node.unlinked_fields heq).1] at hr
    exact ⟨id, m, hm, rfl, hr⟩

end Trimmed

namespace Dce

variable {a b : IrArena} {roots : List NodeId} {i j : Nat}

theorem Supported.subset_live {c : Set Nat} (hc : Supported (Anchored a roots) (Names a) c) :
    ∀ i ∈ c, i ∈ a.liveSlots := by
  intro i hi
  rcases hc i hi with h | ⟨x, -, h⟩
  · exact h.live
  · exact h.1

/-- Nothing that supports itself loses a member in a round. -/
theorem Supported.round {c : Set Nat} (hc : Supported (Anchored a roots) (Names a) c)
    (h : Trimmed a b)
    (hb : ∀ i, i ∈ b.liveSlots ↔ i ∈ a.liveSlots ∧ i ∉ (deadNodes a roots).map (·.index)) :
    Supported (Anchored b roots) (Names b) c := by
  have hstays : ∀ i ∈ c, i ∈ b.liveSlots := by
    intro i hi
    have hlive := Supported.subset_live hc i hi
    refine (hb i).mpr ⟨hlive, fun hdead => (dead_iff hlive).mp hdead ?_⟩
    exact (hc i hi).imp_right fun ⟨x, _, hx⟩ => ⟨x, hx⟩
  intro i hi
  refine (hc i hi).imp (fun ha => h.anchored_iff.mpr ⟨ha, hstays i hi⟩) ?_
  rintro ⟨x, hx, hxi⟩
  exact ⟨x, hx, h.names_iff.mpr ⟨hxi, hstays x hx, hstays i hi⟩⟩

theorem rounds_greatest {fuel k : Nat} (ha : LinksOk a) (hf : a.liveSlots.length < fuel) :
    ∃ b m, rounds roots fuel a k = .ok (b, m) ∧ Trimmed a b ∧ LinksOk b ∧
      deadNodes b roots = [] ∧
      IsGreatest {c | Supported (Anchored a roots) (Names a) c} {i | i ∈ b.liveSlots} := by
  induction fuel generalizing a k with
  | zero => omega
  | succ fuel ih =>
    unfold rounds
    split
    · next hd =>
      refine ⟨a, k, rfl, .refl, ha, hd, fun i hi => ?_, fun c hc => Supported.subset_live hc⟩
      by_contra hno
      have hdead := (@dead_iff a roots i hi).mpr fun h => hno ?_
      · rw [hd] at hdead
        cases hdead
      · exact h.imp_right fun ⟨x, hx⟩ => ⟨x, hx.live_left, hx⟩
    · next hd =>
      have hlive : ∀ id ∈ deadNodes a roots, a.IsLive id ∧ id ≠ .NONE := by
        intro id hid
        have hmem := deadNodes_sublist.subset hid
        refine ⟨isLive_of_mem_liveIds hmem, ?_⟩
        obtain ⟨⟨id, n⟩, hn, rfl⟩ := List.mem_map.mp hmem
        obtain ⟨-, g, -, hpack⟩ := mem_liveNodes.mp hn
        rw [hpack]
        exact NodeId.pack_ne_none
      have hnodup : ((deadNodes a roots).map (·.index)).Nodup :=
        (map_index_liveIds a ▸ a.liveSlots_nodup).sublist (deadNodes_sublist.map _)
      obtain ⟨c, hc, htrim, hlinks, hslots⟩ := removeAll_trimmed ha hlive hnodup
      obtain ⟨c', hc', hlt, -⟩ := @removeAll_dead a roots hd
      cases Except.ok.inj (hc.symm.trans hc')
      obtain ⟨b, m, hb, htrim', hlinks', hdead, hsup, hgreat⟩ :=
        @ih c (k + (deadNodes a roots).length) hlinks (by omega)
      refine ⟨b, m, Checked.bind_ok.mpr ⟨c, hc, hb⟩, htrim.trans htrim', hlinks', hdead,
        fun i hi => ?_, fun d hd => hgreat (Supported.round hd htrim hslots)⟩
      refine (hsup i hi).imp (fun h => (htrim.anchored_iff.mp h).1) ?_
      exact fun ⟨x, hx, hxi⟩ => ⟨x, hx, (htrim.names_iff.mp hxi).1⟩

theorem alive_iff_harmless {s : Set Nat} (hfin : s.Finite)
    (hs : IsGreatest {c | Supported (Anchored a roots) (Names a) c} s) :
    (∀ i, i ∈ s ↔ Alive a roots i) ↔ OutdatedHarmless a roots := by
  have hset : (∀ i, i ∈ s ↔ Alive a roots i) ↔ s = {i | Alive a roots i} := Set.ext_iff.symm
  rw [hset]
  refine (greatest_eq_reached_iff hfin hs fun _ _ => Uses.names).trans (and_congr_left fun _ => ?_)
  constructor
  · exact fun h i j hi hij _ => h i j hi hij
  · intro h i j hi hij
    by_cases hu : Uses a i j
    · obtain ⟨x, hx, hxi⟩ := hi
      exact ⟨x, hx, hxi.tail hu⟩
    · exact h i j hi hij hu

end Dce

/-- The pass ends with an accepted arena that it would leave alone; the
survivors have their fields, and are the nodes reached from the roots and the
impure nodes exactly when no outdated name keeps another one. -/
theorem dce_exact_iff {nodes regions : Nat} {a : IrArena} (h : Tended nodes regions a)
    (hv : verify a = .ok ()) (roots : List NodeId) :
    ∃ b k, Dce.run a roots = .ok (b, k) ∧
      (∀ i ∈ b.liveSlots, i ∈ a.liveSlots ∧
        b.slots[i]?.map (·.unlinked) = a.slots[i]?.map (·.unlinked)) ∧
      verify b = .ok () ∧ Dce.run b roots = .ok (b, 0) ∧
      ((∀ i, i ∈ b.liveSlots ↔ Alive a roots i) ↔ OutdatedHarmless a roots) := by
  obtain ⟨b, k, hrun, htrim, hlinks, hdead, hgreat⟩ :=
    @rounds_greatest a roots (a.liveSlots.length + 1) 0 h.linksOk (Nat.lt_succ_self _)
  have hsup : ∀ i ∈ b.liveSlots, Anchored a roots i ∨ ∃ x ∈ b.liveSlots, Names a x i := hgreat.1
  refine ⟨b, k, hrun, fun i hi => ⟨htrim.live i hi, htrim.kept i fun _ => hi⟩, ?_, ?_, ?_⟩
  · refine htrim.verify h.linksOk hlinks hv (fun id n hn hop => ?_) fun id n hn hi v hv' hlive => ?_
    · have hself : Supported (Anchored a roots) (Names a) {id.index} := by
        rintro i rfl
        exact .inl ⟨id, n, hn, rfl, .inr (by rw [hop]; rfl)⟩
      exact hgreat.2 hself rfl
    · have hnamed : Names a id.index v.node.index :=
        ⟨hlive, id, n, hn, rfl, v, List.mem_append_left _ hv', rfl⟩
      have hins : Supported (Anchored a roots) (Names a)
          (insert v.node.index {i | i ∈ b.liveSlots}) := by
        rintro i (rfl | hi')
        · exact .inr ⟨id.index, .inr hi, hnamed⟩
        · exact (hsup i hi').imp_right fun ⟨x, hx, hxi⟩ => ⟨x, .inr hx, hxi⟩
      exact hgreat.2 hins (Set.mem_insert ..)
  · simp only [Dce.run, Dce.rounds, hdead]
  · exact alive_iff_harmless (List.finite_toSet b.liveSlots) hgreat

theorem tended_filled : Tended 1 1 filled :=
  @Tended.insert 1 1 _ _ (.pack 0 0) oneConst (.pack 0 0 .graph) .start (by decide)

theorem dce_exact_iff_filled :
    ∃ b k, Dce.run filled [] = .ok (b, k) ∧
      (∀ i ∈ b.liveSlots, i ∈ filled.liveSlots ∧
        b.slots[i]?.map (·.unlinked) = filled.slots[i]?.map (·.unlinked)) ∧
      verify b = .ok () ∧ Dce.run b [] = .ok (b, 0) ∧
      ((∀ i, i ∈ b.liveSlots ↔ Alive filled [] i) ↔ OutdatedHarmless filled []) :=
  dce_exact_iff tended_filled (by decide) []

def soleSample : Node := .new (.rng .uniform 1) (.pack 0 0) [] (.scalar .f64)

/-- A sample that consumes the token of another one, which was removed and
whose slot a constant has taken. -/
def staleToken : IrArena := .built do
  let (first, a) ← (IrArena.withCapacity 4 1).insertNode (.pack 0 0) soleSample
  let (_, a) ← a.insertNode (.pack 0 0) { soleSample with effectIn := .fromNode first 0 }
  let a ← a.removeNode first
  let (_, a) ← a.insertNode (.pack 0 0) oneConst
  return a

theorem tended_staleToken : Tended 4 1 staleToken :=
  @Tended.insert 4 1 _ _ (.pack 0 0) oneConst (.pack 0 2 .graph)
    (@Tended.remove 4 1 _ _ (.pack 0 0 .graph)
      (@Tended.insert 4 1 _ _ (.pack 0 0)
        { soleSample with effectIn := .fromNode (.pack 0 0 .graph) 0 } (.pack 1 0 .graph)
        (@Tended.insert 4 1 _ _ (.pack 0 0) soleSample (.pack 0 0 .graph) .start rfl) rfl)
      (by decide) rfl) (by decide)

theorem staleToken_no_uses {i j : Nat} : ¬ Uses staleToken i j := by
  rintro ⟨-, id, n, hn, -, v, hv, -, m, hm⟩
  have hall : ∀ e ∈ staleToken.liveNodes, ∀ v ∈ consumed e.2,
      (staleToken.node v.node).toBool = false := by decide
  have hno := hall (id, n) hn v hv
  rw [hm] at hno
  cases hno

/-- The constant stays although nothing uses it. -/
theorem staleToken_not_exact : ¬ ∀ (nodes regions : Nat) (a : IrArena), Tended nodes regions a →
    verify a = .ok () → (∀ i, ¬ TransGen (Uses a) i i) →
    ∀ roots : List NodeId, (∀ r ∈ roots, a.IsLive r) →
      ∃ b k, Dce.run a roots = .ok (b, k) ∧ ∀ i, i ∈ b.liveSlots ↔ Alive a roots i := by
  intro hall
  have hacyclic : ∀ i, ¬ TransGen (Uses staleToken) i i := by
    intro i hi
    obtain ⟨j, -, hji⟩ := TransGen.tail'_iff.mp hi
    exact staleToken_no_uses hji
  obtain ⟨b, k, hrun, hexact⟩ :=
    hall 4 1 staleToken tended_staleToken (by decide) hacyclic [] (by simp)
  have hsame : Dce.run staleToken [] = .ok (staleToken, 0) := by decide
  cases Except.ok.inj (hrun.symm.trans hsame)
  obtain ⟨x, hx, hpath⟩ := (hexact 0).mp (by decide)
  rcases hpath.cases_tail with rfl | ⟨y, -, hy⟩
  · obtain ⟨id, n, hn, hi, hr | himpure⟩ := hx
    · obtain ⟨r, hr, -⟩ := hr
      cases hr
    · have hpure : ∀ e ∈ staleToken.liveNodes, e.1.index = 0 → e.2.op.isPure = true := by decide
      rw [hpure (id, n) hn hi] at himpure
      cases himpure
  · exact staleToken_no_uses hy

end Sxla
