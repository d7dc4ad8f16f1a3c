import Mathlib.Data.Fintype.Card
import Sxla.Graph.Dominance
import Sxla.Graph.RegionTree

/-!
# The two dominance checks agree

A pass of `build` settles at least the regions one step below those that are
settled, so as many passes as there are regions settle every region at its
depth. The climb by the difference of two depths and the walk of the verifier
then both decide whether one region is among the ancestors of the other.
-/

namespace Sxla

open Checked IrArena

/-- The arenas that the operations of the source leave, with any arguments. -/
inductive Operated (nodes regions : Nat) : IrArena → Prop
  | start : Operated nodes regions (.withCapacity nodes regions)
  | newRegion {a b : IrArena} {parent r : RegionId} {owner : NodeId}
      (h : Operated nodes regions a) (hr : a.newRegion parent owner = .ok (r, b)) :
      Operated nodes regions b
  | insert {a b : IrArena} {region : RegionId} {n : Node} {id : NodeId}
      (h : Operated nodes regions a) (hi : a.insertNode region n = .ok (id, b)) :
      Operated nodes regions b
  | modify {a b : IrArena} {id : NodeId} {f : Node → Node}
      (h : Operated nodes regions a) (hm : a.modifyNode id f = .ok b) : Operated nodes regions b
  | remove {a b : IrArena} {id : NodeId}
      (h : Operated nodes regions a) (hr : a.removeNode id = .ok b) : Operated nodes regions b

/-- The handle is met on the parent chain from another, or is that one. -/
inductive Ancestor (a : IrArena) (x : RegionId) : RegionId → Prop
  | self : Ancestor a x x
  | up {y : RegionId} {r : Region} (h : a.region y = .ok r) (hp : Ancestor a x r.parent) :
    Ancestor a x y

variable {a : IrArena} {x y z rid : RegionId} {r : Region} {d d' dx dy fuel i : Nat}

theorem Operated.treeOk {nodes regions : Nat} (h : Operated nodes regions a) : TreeOk a := by
  induction h with
  | start => exact withCapacity_treeOk _ _
  | newRegion _ hr ih => exact ih.newRegion hr
  | insert _ hi ih => exact ih.sameTree (insertNode_sameTree hi)
  | modify _ hm ih =>
    obtain ⟨m, -, rfl⟩ := map_ok.mp hm
    exact ih.sameTree ⟨rfl, rfl⟩
  | remove _ hr ih => exact ih.sameTree (removeNode_sameTree hr)

-- ---------------------------------------------------------------------------
-- Ancestors and depths
-- ---------------------------------------------------------------------------

theorem HasDepth.slot (h : HasDepth a rid d) (ht : TreeOk a) :
    HasDepth a (.pack rid.index 0) d := by
  obtain ⟨r, hr⟩ := h.region_ok
  exact h.congr hr (ht.generation hr)

/-- Every depth up to that of a region is the depth of some slot. -/
theorem HasDepth.exists_slot (h : HasDepth a rid d) (ht : TreeOk a) {k : Nat} (hk : k ≤ d) :
    ∃ i < a.regions.length, HasDepth a (.pack i 0) k := by
  induction h with
  | @root id r hr hp =>
    obtain rfl := Nat.le_zero.mp hk
    have hlt := (List.getElem?_eq_some_iff.mp (region_eq_ok.mp hr).2.1).1
    exact ⟨id.index, hlt, (HasDepth.root hr hp).slot ht⟩
  | @child id r d hr hp ih =>
    rcases Nat.lt_or_eq_of_le hk with hlt | rfl
    · exact ih (Nat.lt_succ_iff.mp hlt)
    · have hlt := (List.getElem?_eq_some_iff.mp (region_eq_ok.mp hr).2.1).1
      exact ⟨id.index, hlt, (HasDepth.child hr hp).slot ht⟩

theorem HasDepth.lt_regionCount (h : HasDepth a rid d) (ht : TreeOk a) : d < a.regionCount := by
  have hslot : ∀ k : Fin (d + 1), ∃ i : Fin a.regions.length, HasDepth a (.pack i 0) k := by
    intro k
    obtain ⟨i, hi, hk⟩ := h.exists_slot ht (Nat.lt_succ_iff.mp k.isLt)
    exact ⟨⟨i, hi⟩, hk⟩
  choose slot hslot using hslot
  have hinj : Function.Injective slot := by
    intro k l hkl
    have hl := hslot l
    rw [← hkl] at hl
    exact Fin.ext ((hslot k).unique hl)
  have hcard := Fintype.card_le_of_injective slot hinj
  rw [Fintype.card_fin, Fintype.card_fin] at hcard
  exact hcard

/-- Nothing that exists is above a region whose parent is `NONE`. -/
theorem not_ancestor_of_isNone (hy : y.isNone = true) (hx : x.isNone = false) :
    ¬ Ancestor a x y := by
  intro h
  cases h with
  | self => simp [hx] at hy
  | up hr _ => simp [(region_eq_ok.mp hr).1] at hy

theorem Ancestor.depth_le (h : Ancestor a x y) (hx : HasDepth a x dx) (hy : HasDepth a y dy) :
    dx ≤ dy := by
  induction h generalizing dy with
  | self => exact (hx.unique hy).le
  | up hr hp ih =>
    cases hy with
    | root hr' hnone =>
      cases Except.ok.inj (hr.symm.trans hr')
      exact (not_ancestor_of_isNone hnone hx.not_isNone hp).elim
    | child hr' hd =>
      cases Except.ok.inj (hr.symm.trans hr')
      exact Nat.le_succ_of_le (ih hd)

theorem Ancestor.trans (h : Ancestor a x y) (h' : Ancestor a y z) : Ancestor a x z := by
  induction h' with
  | self => exact h
  | up hr _ ih => exact .up hr ih

theorem Ancestor.cases_of_ne (h : Ancestor a x y) (hne : x ≠ y) (hr : a.region y = .ok r) :
    Ancestor a x r.parent := by
  cases h with
  | self => exact (hne rfl).elim
  | up hr' hp =>
    cases Except.ok.inj (hr.symm.trans hr')
    exact hp

/-- A chain has one region of each depth. -/
theorem Ancestor.unique (hx : Ancestor a x y) (hz : Ancestor a z y) (hdx : HasDepth a x d)
    (hdz : HasDepth a z d) (hy : HasDepth a y dy) : x = z := by
  induction hx generalizing dy with
  | self =>
    by_contra hne
    obtain ⟨r, hr⟩ := hy.region_ok
    have hup := hz.cases_of_ne (Ne.symm hne) hr
    cases hy.unique hdx
    cases hy with
    | root hr' hp =>
      cases Except.ok.inj (hr.symm.trans hr')
      exact not_ancestor_of_isNone hp hdz.not_isNone hup
    | child hr' hp =>
      cases Except.ok.inj (hr.symm.trans hr')
      exact absurd (hup.depth_le hdz hp) (Nat.not_succ_le_self _)
  | @up y r hr hp ih =>
    cases hy with
    | root hr' hnone =>
      cases Except.ok.inj (hr.symm.trans hr')
      exact (not_ancestor_of_isNone hnone hdx.not_isNone hp).elim
    | child hr' hd =>
      cases Except.ok.inj (hr.symm.trans hr')
      by_cases hzy : z = y
      · subst hzy
        have hle := hp.depth_le hdx hd
        have heq := (HasDepth.child hr hd).unique hdz
        omega
      · exact ih (hz.cases_of_ne hzy hr) hd

-- ---------------------------------------------------------------------------
-- The walk of the verifier
-- ---------------------------------------------------------------------------

namespace Verifier

theorem reaches_iff (hy : HasDepth a y d) (hx : x.isNone = false) (hf : d < fuel) :
    reaches a x fuel y = true ↔ Ancestor a x y := by
  induction hy generalizing fuel with
  | @root y r hr hp =>
    obtain ⟨fuel, rfl⟩ := Nat.exists_eq_add_of_le' hf
    have hnone := (region_eq_ok.mp hr).1
    simp only [reaches, hnone, Bool.false_eq_true, ↓reduceIte, hr]
    split
    · next heq =>
      subst heq
      exact ⟨fun _ => .self, fun _ => rfl⟩
    · next hne =>
      have hstop : reaches a x fuel r.parent = false := by
        cases fuel with
        | zero => rfl
        | succ fuel => simp [reaches, hp]
      rw [hstop]
      refine iff_of_false Bool.false_ne_true fun h => ?_
      exact not_ancestor_of_isNone hp hx (h.cases_of_ne (Ne.symm hne) hr)
  | @child y r d hr hp ih =>
    obtain ⟨fuel, rfl⟩ := Nat.exists_eq_succ_of_ne_zero (Nat.ne_zero_of_lt hf)
    have hnone := (region_eq_ok.mp hr).1
    simp only [reaches, hnone, Bool.false_eq_true, ↓reduceIte, hr]
    split
    · next heq =>
      subst heq
      exact ⟨fun _ => .self, fun _ => rfl⟩
    · next hne =>
      rw [ih (Nat.lt_of_succ_lt_succ hf)]
      exact ⟨.up hr, fun h => h.cases_of_ne (Ne.symm hne) hr⟩

theorem regionDominates_iff (ht : TreeOk a) (hx : x.isNone = false) (hy : HasDepth a y d) :
    regionDominates a x y = true ↔ Ancestor a x y := by
  unfold regionDominates
  rw [hx, Bool.or_false]
  split
  · next heq =>
    obtain rfl := of_decide_eq_true heq
    exact ⟨fun _ => .self, fun _ => rfl⟩
  · have hlt := hy.lt_regionCount ht
    exact reaches_iff hy hx (by omega)

end Verifier

-- ---------------------------------------------------------------------------
-- The passes of `build`
-- ---------------------------------------------------------------------------

namespace DominatorTree

variable {t t' : DominatorTree} {c : Bool} {slot k : Nat}

/-- Every region has a depth that fits below the mark for unvisited. -/
def Shallow (a : IrArena) : Prop :=
  ∀ id r, a.region id = .ok r → ∃ d < 0xFFFF, HasDepth a id d

/-- What the tables hold between two slots of a pass. -/
structure Records (a : IrArena) (t : DominatorTree) : Prop where
  depths : t.depths.length = a.regions.length
  parents : ∀ (i : Nat) (r : Region), a.regions[i]? = some r → t.parents[i]? = some r.parent
  depth : ∀ i, t.depthOf i ≠ unvisited → HasDepth a (.pack i 0) (t.depthOf i)

/-- The regions of depth less than `k` have been visited. -/
def Settled (a : IrArena) (k : Nat) (t : DominatorTree) : Prop :=
  ∀ i d, HasDepth a (.pack i 0) d → d < k → t.depthOf i ≠ unvisited

theorem depthOf_place {parent : RegionId} (hs : slot < t.depths.length) :
    (t.place slot d parent).depthOf i = if i = slot then d else t.depthOf i := by
  simp only [depthOf, place, List.getD_eq_getElem?_getD, List.getElem?_set]
  split
  · next heq =>
    subst heq
    simp
  · next hne => rw [if_neg (Ne.symm hne)]

theorem Records.place (h : Records a t) (hr : a.region (.pack slot 0) = .ok r)
    (hd : HasDepth a (.pack slot 0) d) : Records a (t.place slot d r.parent) := by
  have hget := (region_eq_ok.mp hr).2.1
  have hlt : slot < a.regions.length := (List.getElem?_eq_some_iff.mp hget).1
  refine ⟨by simpa [DominatorTree.place] using h.depths, fun i r' hr' => ?_, fun i hi => ?_⟩
  · simp only [DominatorTree.place, List.getElem?_set]
    split
    · next heq =>
      subst heq
      cases Option.some.inj (hget.symm.trans hr')
      have hpar := h.parents _ _ hr'
      rw [if_pos (List.getElem?_eq_some_iff.mp hpar).1]
    · exact h.parents i r' hr'
  · rw [depthOf_place (h.depths.symm ▸ hlt)] at hi ⊢
    split at hi
    · next heq =>
      rw [if_pos heq, heq]
      exact hd
    · next hne =>
      rw [if_neg hne]
      exact h.depth i hi

/-- One slot: nothing to do, or the slot gets its depth. -/
theorem settle_cases (h : Records a t) (ht : TreeOk a) (hs : Shallow a)
    (hslot : slot < a.regions.length) :
    (settle a (t, c) slot = (t, c) ∧
      (t.depthOf slot = unvisited → ∀ r, a.region (.pack slot 0) = .ok r →
        r.parent.isNone = false ∧ t.depthOf r.parent.index = unvisited)) ∨
    ∃ r d, a.region (.pack slot 0) = .ok r ∧ HasDepth a (.pack slot 0) d ∧ d ≠ unvisited ∧
      settle a (t, c) slot = (t.place slot d r.parent, true) := by
  have hr := ht.region_pack hslot
  generalize a.regions[slot] = r at hr
  obtain ⟨d, hdlt, hd⟩ := hs _ r hr
  by_cases hvis : t.depthOf slot = unvisited
  swap
  · exact .inl ⟨by simp [settle, hvis], fun h => (hvis h).elim⟩
  cases hd with
  | root hr' hp =>
    cases Except.ok.inj (hr.symm.trans hr')
    refine .inr ⟨r, 0, hr, .root hr hp, by decide, ?_⟩
    have hnone : r.parent = .NONE := by simpa [RegionId.isNone] using hp
    simp only [settle, hvis, hr, hp, ne_eq, not_true_eq_false, ↓reduceIte]
    rw [← hnone]
  | @child _ _ d hr' hd =>
    cases Except.ok.inj (hr.symm.trans hr')
    have hnone := hd.not_isNone
    by_cases hpar : t.depthOf r.parent.index = unvisited
    · refine .inl ⟨by simp [settle, hvis, hr, hnone, hpar], fun _ r' hr'' => ?_⟩
      cases Except.ok.inj (hr.symm.trans hr'')
      exact ⟨hnone, hpar⟩
    · have heq := (h.depth _ hpar).unique (hd.slot ht)
      obtain ⟨p, hp⟩ := hd.region_ok
      have hlt : r.parent.index < a.regionCount :=
        (List.getElem?_eq_some_iff.mp (region_eq_ok.mp hp).2.1).1
      have hmin : min (d + 1) unvisited = d + 1 :=
        Nat.min_eq_left (Nat.le_of_lt (hdlt.trans_eq (by decide)))
      refine .inr ⟨r, d + 1, hr, .child hr hd, (hdlt.trans_eq (by decide)).ne, ?_⟩
      have hknown : r.parent.index < a.regionCount ∧ t.depthOf r.parent.index ≠ unvisited :=
        ⟨hlt, hpar⟩
      simp only [settle, hvis, hr, hnone, ne_eq, not_true_eq_false, ↓reduceIte, Bool.false_eq_true]
      rw [if_pos hknown, heq, hmin]

/-- What a stretch of a pass does. -/
structure Passed (a : IrArena) (slots : List Nat) (t : DominatorTree) (c : Bool)
    (t' : DominatorTree) (c' : Bool) : Prop where
  records : Records a t'
  keeps : ∀ i, t.depthOf i ≠ unvisited → t'.depthOf i ≠ unvisited
  settles : ∀ k, Settled a k t → ∀ i ∈ slots, ∀ d, HasDepth a (.pack i 0) d → d < k + 1 →
    t'.depthOf i ≠ unvisited
  quiet : c' = false → t' = t

theorem settle_keeps (h : Records a t) (ht : TreeOk a) (hs : Shallow a)
    (hslot : slot < a.regions.length) {c' : Bool} (heq : settle a (t, c) slot = (t', c')) :
    Passed a [slot] t c t' c' ∧ (c = true → c' = true) := by
  rcases @settle_cases _ _ c _ h ht hs hslot with ⟨hsame, hwait⟩ | ⟨r, d, hr, hd, hne, hplace⟩
  · cases hsame.symm.trans heq
    refine ⟨⟨h, fun _ hi => hi, fun k hk i hi d hd hlt => ?_, fun _ => rfl⟩, id⟩
    obtain rfl := List.mem_singleton.mp hi
    intro hvis
    obtain ⟨r, hr⟩ := hd.region_ok
    obtain ⟨hnone, hpar⟩ := hwait hvis r hr
    cases hd with
    | root hr' hp =>
      cases Except.ok.inj (hr.symm.trans hr')
      simp [hnone] at hp
    | child hr' hp =>
      cases Except.ok.inj (hr.symm.trans hr')
      exact hk _ _ (hp.slot ht) (Nat.lt_of_succ_lt_succ hlt) hpar
  · cases hplace.symm.trans heq
    have hlen : slot < t.depths.length := h.depths.symm ▸ hslot
    refine ⟨⟨h.place hr hd, fun i hi => ?_, fun k _ i hi _ _ _ => ?_, fun hc => by cases hc⟩,
      fun _ => rfl⟩
    · rw [depthOf_place hlen]
      split
      · exact hne
      · exact hi
    · rw [depthOf_place hlen, if_pos (List.mem_singleton.mp hi)]
      exact hne

theorem pass_spec {slots : List Nat} (h : Records a t) (ht : TreeOk a) (hs : Shallow a)
    (hslots : ∀ s ∈ slots, s < a.regions.length) {c' : Bool}
    (heq : slots.foldl (settle a) (t, c) = (t', c')) :
    Passed a slots t c t' c' ∧ (c = true → c' = true) := by
  induction slots generalizing t c with
  | nil =>
    cases heq
    exact ⟨⟨h, fun _ hi => hi, by simp, fun _ => rfl⟩, id⟩
  | cons s slots ih =>
    rw [List.foldl_cons] at heq
    cases hone : settle a (t, c) s with
    | mk t₁ c₁ =>
      rw [hone] at heq
      obtain ⟨hfirst, hc₁⟩ := settle_keeps h ht hs (hslots s (by simp)) hone
      obtain ⟨hrest, hc'⟩ := ih hfirst.records (fun s hs => hslots s (by simp [hs])) heq
      refine ⟨⟨hrest.records, fun i hi => hrest.keeps i (hfirst.keeps i hi),
        fun k hk i hi d hd hlt => ?_, fun hquiet => ?_⟩, fun hc => hc' (hc₁ hc)⟩
      · rcases List.mem_cons.mp hi with rfl | hi
        · exact hrest.keeps i (hfirst.settles k hk i (by simp) d hd hlt)
        · exact hrest.settles k (fun j e he hlt => hfirst.keeps j (hk j e he hlt)) i hi d hd hlt
      · have hc₁' : c₁ = false := by
          by_contra hc
          simp [hc' (by simpa using hc)] at hquiet
        rw [hrest.quiet hquiet, hfirst.quiet hc₁']

/-- A pass over all slots goes one depth further. -/
theorem Passed.settled {c' : Bool} (h : Passed a (List.range a.regionCount) t c t' c')
    (hk : Settled a k t) : Settled a (k + 1) t' := by
  intro i d hd hlt
  obtain ⟨r, hr⟩ := hd.region_ok
  have hi : i < a.regionCount := (List.getElem?_eq_some_iff.mp (region_eq_ok.mp hr).2.1).1
  exact h.settles k hk i (List.mem_range.mpr hi) d hd hlt

/-- Every region is recorded at its depth. -/
structure Complete (a : IrArena) (t : DominatorTree) : Prop where
  records : Records a t
  depth : ∀ i d, HasDepth a (.pack i 0) d → t.depthOf i = d ∧ d ≠ unvisited

theorem Records.complete (h : Records a t) (hs : ∀ k, Settled a k t) : Complete a t := by
  refine ⟨h, fun i d hd => ?_⟩
  have hne := hs (d + 1) i d hd (Nat.lt_succ_self d)
  have heq := (h.depth i hne).unique hd
  rw [heq] at hne
  exact ⟨heq, hne⟩

theorem rounds_complete (h : Records a t) (ht : TreeOk a) (hs : Shallow a) (hk : Settled a k t)
    (hf : a.regionCount ≤ k + fuel) : Complete a (rounds a fuel t) := by
  induction fuel generalizing t k with
  | zero =>
    refine h.complete fun m i d hd _ => hk i d hd ?_
    exact Nat.lt_of_lt_of_le (hd.lt_regionCount ht) hf
  | succ fuel ih =>
    unfold rounds
    cases hpass : (List.range a.regionCount).foldl (settle a) (t, false) with
    | mk t' c' =>
      obtain ⟨hspec, -⟩ := pass_spec h ht hs (fun s hs => List.mem_range.mp hs) hpass
      cases c' with
      | true => exact ih hspec.records (hspec.settled hk) (by omega)
      | false =>
        have hsame := hspec.quiet rfl
        subst hsame
        refine hspec.records.complete fun m => ?_
        induction m with
        | zero => exact fun i d _ hlt => absurd hlt (Nat.not_lt_zero d)
        | succ m ih => exact hspec.settled ih

theorem build_complete (ht : TreeOk a) (hs : Shallow a) :
    ∃ t, build a = .ok t ∧ Complete a t := by
  have hparents : (List.range a.regionCount).mapM (recordedParent a) =
      .ok ((List.range a.regionCount).map
        fun i => ((a.regions[i]?.map (·.parent)).getD .NONE)) := by
    refine mapM_eq fun i hi => ?_
    have hi : i < a.regions.length := List.mem_range.mp hi
    rw [recordedParent, ht.region_pack hi, List.getElem?_eq_getElem hi]
    rfl
  generalize hgen : (List.range a.regionCount).map
    (fun i => ((a.regions[i]?.map (·.parent)).getD .NONE)) = parents at hparents
  have hget : ∀ (i : Nat) (r : Region), a.regions[i]? = some r → parents[i]? = some r.parent := by
    intro i r hr
    have hi : i < a.regionCount := (List.getElem?_eq_some_iff.mp hr).1
    rw [← hgen, List.getElem?_map, List.getElem?_range hi, Option.map_some, hr]
    rfl
  have hblank : ∀ i, depthOf ⟨List.replicate a.regionCount unvisited, parents⟩ i = unvisited := by
    intro i
    simp only [depthOf, List.getD_eq_getElem?_getD, List.getElem?_replicate]
    split <;> rfl
  have hempty : Records a ⟨List.replicate a.regionCount unvisited, parents⟩ :=
    ⟨List.length_replicate, hget, fun i hi => (hi (hblank i)).elim⟩
  refine ⟨_, bind_ok.mpr ⟨parents, hparents, rfl⟩, ?_⟩
  have hnone : ∀ t, Settled a 0 t := fun t i d _ hlt => absurd hlt (Nat.not_lt_zero d)
  refine @rounds_complete _ a.regionCount _ 0 ?_ ht hs (hnone _) (by omega)
  rcases ht.root with hroot | ⟨hroot, r, hr, hp⟩
  · rw [IrArena.rootRegion, hroot, region_none]
    exact hempty
  · have hregion : a.region (.pack 0 0) = .ok r :=
      region_eq_ok.mpr ⟨RegionId.isNone_pack, hr, ht.fresh r (List.mem_of_getElem? hr)⟩
    have hplace := hempty.place hregion (.root hregion (by rw [hp]; rfl))
    rw [hp] at hplace
    rw [IrArena.rootRegion, hroot, hregion]
    exact hplace

-- ---------------------------------------------------------------------------
-- The climb of a query
-- ---------------------------------------------------------------------------

theorem Complete.climb (h : Complete a t) (hy : HasDepth a y dy) (hle : dx ≤ dy)
    (hf : dy ≤ dx + fuel) :
    ∃ z, t.climb dx fuel dy y = some (dx, z) ∧ Ancestor a z y ∧ HasDepth a z dx := by
  induction fuel generalizing y dy with
  | zero =>
    obtain rfl := Nat.le_antisymm hle hf
    exact ⟨y, by simp [DominatorTree.climb], .self, hy⟩
  | succ fuel ih =>
    rcases Nat.lt_or_eq_of_le hle with hlt | rfl
    · cases hy with
      | root => exact absurd hlt (Nat.not_lt_zero dx)
      | @child _ r d hr hp =>
        obtain ⟨z, hz, hanc, hdz⟩ := ih hp (Nat.lt_succ_iff.mp hlt) (by omega)
        have hpar := h.records.parents _ _ (region_eq_ok.mp hr).2.1
        refine ⟨z, ?_, .up hr hanc, hdz⟩
        rw [DominatorTree.climb, if_neg (Nat.not_le.mpr hlt)]
        simp only [hpar, hp.not_isNone, Bool.false_eq_true, ↓reduceIte]
        exact hz
    · exact ⟨y, by simp [DominatorTree.climb], .self, hy⟩

theorem Complete.dominates_iff (h : Complete a t) (ht : TreeOk a) (hx : HasDepth a x dx)
    (hy : HasDepth a y dy) : t.dominates x y = true ↔ Ancestor a x y := by
  have hlt : ∀ {id : RegionId} {d : Nat}, HasDepth a id d → ¬ id.index ≥ t.depths.length := by
    intro id d hd
    obtain ⟨r, hr⟩ := hd.region_ok
    rw [h.records.depths]
    exact Nat.not_le.mpr (List.getElem?_eq_some_iff.mp (region_eq_ok.mp hr).2.1).1
  obtain ⟨hdx, hnx⟩ := h.depth _ _ (hx.slot ht)
  obtain ⟨hdy, hny⟩ := h.depth _ _ (hy.slot ht)
  unfold dominates
  split
  · next heq =>
    subst heq
    exact ⟨fun _ => .self, fun _ => rfl⟩
  rw [if_neg (not_or.mpr ⟨hlt hx, hlt hy⟩)]
  simp only [hdx, hdy, hnx, hny, false_or]
  split
  · next hless =>
    refine iff_of_false Bool.false_ne_true fun hanc => ?_
    exact absurd (hanc.depth_le hx hy) (Nat.not_le.mpr hless)
  · next hless =>
    have hcount := hy.lt_regionCount ht
    have hlen : t.depths.length = a.regionCount := h.records.depths
    obtain ⟨z, hz, hanc, hdz⟩ := @Complete.climb _ _ dx dy (t.depths.length + 1) t h hy
      (Nat.le_of_not_lt hless) (by omega)
    simp only [hz, BEq.rfl, Bool.true_and, beq_iff_eq]
    constructor
    · rintro rfl
      exact hanc
    · exact fun hx' => hanc.unique hx' hdz hx hy

end DominatorTree

open DominatorTree Verifier

/-- Both checks decide whether one region is another's ancestor. -/
theorem dominances_agree {nodes regions : Nat} (h : Operated nodes regions a)
    (hs : ∀ id r, a.region id = .ok r → ∃ d < 65535, HasDepth a id d) {rx ry : Region}
    (hx : a.region x = .ok rx) (hy : a.region y = .ok ry) :
    ∃ t, DominatorTree.build a = .ok t ∧ t.dominates x y = regionDominates a x y ∧
      (regionDominates a x y = true ↔ Ancestor a x y) := by
  have ht := h.treeOk
  obtain ⟨t, hbuild, hcomplete⟩ := build_complete ht hs
  obtain ⟨dx, -, hdx⟩ := hs x rx hx
  obtain ⟨dy, -, hdy⟩ := hs y ry hy
  have hverify := regionDominates_iff ht hdx.not_isNone hdy
  refine ⟨t, hbuild, ?_, hverify⟩
  rw [Bool.eq_iff_iff, hverify]
  exact hcomplete.dominates_iff ht hdx hdy

theorem operated_nestedRegions : Operated 1 3 nestedRegions :=
  @Operated.newRegion 1 3 _ _ (.pack 1 0) (.pack 2 0) .NONE
    (@Operated.newRegion 1 3 _ _ (.pack 0 0) (.pack 1 0) .NONE .start rfl) (by decide)

theorem nestedRegions_shallow : Shallow nestedRegions := by
  intro id r hr
  have h0 := @HasDepth.root nestedRegions (.pack 0 0) ⟨.NONE, .NONE, .NONE, 0⟩ (by decide) rfl
  have h1 := @HasDepth.child nestedRegions (.pack 1 0) ⟨.pack 0 0, .NONE, .NONE, 0⟩ 0 (by decide) h0
  have h2 := @HasDepth.child nestedRegions (.pack 2 0) ⟨.pack 1 0, .NONE, .NONE, 0⟩ 1 (by decide) h1
  have hslot := operated_nestedRegions.treeOk.generation hr
  have hlt : id.index < 3 := (List.getElem?_eq_some_iff.mp (region_eq_ok.mp hr).2.1).1
  rcases (by omega : id.index = 0 ∨ id.index = 1 ∨ id.index = 2) with h | h | h <;> rw [h] at hslot
  · exact ⟨0, by decide, h0.congr hslot hr⟩
  · exact ⟨1, by decide, h1.congr hslot hr⟩
  · exact ⟨2, by decide, h2.congr hslot hr⟩

theorem dominances_agree_nested :
    ∃ t, DominatorTree.build nestedRegions = .ok t ∧
      t.dominates (.pack 0 0) (.pack 2 0) = regionDominates nestedRegions (.pack 0 0) (.pack 2 0) ∧
      (regionDominates nestedRegions (.pack 0 0) (.pack 2 0) = true ↔
        Ancestor nestedRegions (.pack 0 0) (.pack 2 0)) :=
  @dominances_agree nestedRegions (.pack 0 0) (.pack 2 0) 1 3 operated_nestedRegions
    nestedRegions_shallow ⟨.NONE, .NONE, .NONE, 0⟩ ⟨.pack 1 0, .NONE, .NONE, 0⟩
    (by decide) (by decide)

end Sxla
