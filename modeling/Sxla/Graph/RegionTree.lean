import Sxla.Graph.Verifier
import Sxla.Ir.Capacity

/-!
# The tree of regions

A region has a depth when its parent chain passes through existing regions
only and ends at one whose parent is `NONE`. The first phase of `verify`
bounds the chains, which excludes cycles, and lets a chain that leaves the
existing regions pass.
-/

namespace Sxla

open Checked

/-- A region apart from the head of its list. -/
def Region.unlisted (r : Region) : Region := { r with firstNode := .NONE }

/-- The parent chain from a handle, counted in steps. -/
inductive HasDepth (a : IrArena) : RegionId → Nat → Prop
  | root {id : RegionId} {r : Region} (h : a.region id = .ok r) (hp : r.parent.isNone = true) :
    HasDepth a id 0
  | child {id : RegionId} {r : Region} {d : Nat} (h : a.region id = .ok r)
    (hp : HasDepth a r.parent d) : HasDepth a id (d + 1)

/-- The chain reaches a region whose parent is `NONE`, through existing
regions only. -/
def Rooted (a : IrArena) (id : RegionId) : Prop := ∃ d, HasDepth a id d

/-- No region names a parent that is not there. -/
def ParentsExist (a : IrArena) : Prop :=
  ∀ id r, a.region id = .ok r → r.parent.isNone = true ∨ ∃ p, a.region r.parent = .ok p

namespace IrArena

variable {a b : IrArena} {id x : NodeId} {n : Node} {rid rid' : RegionId} {r : Region}
  {d d' fuel : Nat}

theorem region_eq_ok : a.region rid = .ok r ↔
    rid.isNone = false ∧ a.regions[rid.index]? = some r ∧ r.generation = rid.generation := by
  unfold region validateRegion
  split
  · next hnone => simp [hnone]
  · next hnone =>
    cases hget : a.regions[rid.index]? with
    | none => simp
    | some r' =>
      by_cases hgen : r'.generation = rid.generation
      · simp only [hgen, ↓reduceIte, Except.ok.injEq, Option.some.injEq, hnone, true_and]
        constructor
        · rintro rfl
          exact ⟨rfl, hgen⟩
        · exact And.left
      · simp only [hgen, ↓reduceIte, Option.some.injEq, reduceCtorEq, false_iff]
        rintro ⟨-, rfl, h⟩
        exact hgen h

theorem region_none : a.region .NONE = .error .unknownRegion := rfl

-- ---------------------------------------------------------------------------
-- What the operations do to the regions
-- ---------------------------------------------------------------------------

theorem unlinkFrom_eq {next : NodeId} :
    ∃ slots, a.unlinkFrom id next fuel x = { a with slots } := by
  induction fuel generalizing x with
  | zero => exact ⟨a.slots, rfl⟩
  | succ fuel ih =>
    unfold unlinkFrom
    split
    · exact ⟨a.slots, rfl⟩
    extract_lets nextOfCur
    split
    · cases h : a.modifyNode x fun n => { n with nextInRegion := next } with
      | ok b =>
        obtain ⟨m, -, rfl⟩ := map_ok.mp h
        exact ⟨_, rfl⟩
      | error e => exact ⟨a.slots, rfl⟩
    · exact ih

theorem setFirstNode_unlisted {i : Nat} :
    (a.setFirstNode i id).regions.map (·.unlisted) = a.regions.map (·.unlisted) := by
  refine List.ext_getElem? fun j => ?_
  simp only [setFirstNode, List.getElem?_map, List.getElem?_modify, Option.map_eq_map,
    Option.map_map]
  congr 1
  funext r
  simp only [Function.comp_apply]
  split <;> rfl

/-- The frame of an operation that leaves the tree alone. -/
structure SameTree (a b : IrArena) : Prop where
  regions : b.regions.map (·.unlisted) = a.regions.map (·.unlisted)
  root : b.root = a.root

theorem SameTree.refl : SameTree a a := ⟨rfl, rfl⟩

theorem SameTree.trans {c : IrArena} (h : SameTree a b) (h' : SameTree b c) : SameTree a c :=
  ⟨h'.regions.trans h.regions, h'.root.trans h.root⟩

theorem unlink_sameTree : SameTree a (a.unlink id n) := by
  unfold unlink
  split
  · exact .refl
  split
  · exact .refl
  split
  · exact ⟨setFirstNode_unlisted, rfl⟩
  · next r _ _ =>
    obtain ⟨slots, h⟩ := @unlinkFrom_eq a id r.firstNode (a.slots.length + 1) n.nextInRegion
    rw [h]
    exact ⟨rfl, rfl⟩

theorem removeNode_sameTree (h : a.removeNode id = .ok b) : SameTree a b := by
  obtain ⟨n, hn, -⟩ := bind_ok.mp h
  rw [removeNode_eq_release hn, Except.ok.injEq] at h
  subst h
  exact ⟨unlink_sameTree.regions, unlink_sameTree.root⟩

theorem insertNode_sameTree (h : a.insertNode rid n = .ok (id, b)) : SameTree a b := by
  unfold insertNode at h
  by_cases hover : n.nInputs > MAX_INPUTS
  · simp only [hover, ↓reduceIte] at h
    cases h
  simp only [hover, ↓reduceIte] at h
  obtain ⟨r, hr, h⟩ := bind_ok.mp h
  by_cases hfull : a.slots.length ≥ a.nodeCapacity
  · simp only [hfull, ↓reduceIte] at h
    cases h
  simp only [hfull, ↓reduceIte] at h
  split at h
  · cases h
    exact ⟨@setFirstNode_unlisted { a with slots := _ } _ _, rfl⟩
  · cases h
    exact ⟨@setFirstNode_unlisted { a with slots := _, nodeFree := _ } _ _, rfl⟩

/-- Regions are never freed, and the first one is the root. -/
structure TreeOk (a : IrArena) : Prop where
  fresh : ∀ r ∈ a.regions, r.generation = 0
  root : a.root = .NONE ∨
    a.root = .pack 0 0 ∧ ∃ r : Region, a.regions[0]? = some r ∧ r.parent = .NONE

theorem TreeOk.sameTree (h : TreeOk a) (hs : SameTree a b) : TreeOk b := by
  have hget : ∀ (i : Nat) (r : Region), b.regions[i]? = some r →
      ∃ r', a.regions[i]? = some r' ∧ r'.unlisted = r.unlisted := by
    intro i r hr
    have hmap := congrArg (·[i]?) hs.regions
    simp only [List.getElem?_map, hr, Option.map_some] at hmap
    exact Option.map_eq_some_iff.mp hmap.symm
  have hlen : b.regions.length = a.regions.length := by simpa using congrArg List.length hs.regions
  refine ⟨fun r hr => ?_, ?_⟩
  · obtain ⟨i, hi⟩ := List.getElem?_of_mem hr
    obtain ⟨r', hr', heq⟩ := hget i r hi
    rw [← show r.unlisted.generation = r.generation from rfl, ← heq]
    exact h.fresh r' (List.mem_of_getElem? hr')
  · rw [hs.root]
    refine h.root.imp_right fun ⟨hroot, r, hr, hp⟩ => ⟨hroot, ?_⟩
    have hlt := (List.getElem?_eq_some_iff.mp hr).1
    have hb := List.getElem?_eq_getElem (hlen ▸ hlt : 0 < b.regions.length)
    obtain ⟨r', hr', heq⟩ := hget 0 _ hb
    cases Option.some.inj (hr.symm.trans hr')
    refine ⟨_, hb, ?_⟩
    rw [← hp]
    exact congrArg (·.parent) heq.symm

theorem TreeOk.newRegion {parent : RegionId} {owner : NodeId} (h : TreeOk a)
    (hn : a.newRegion parent owner = .ok (rid, b)) : TreeOk b := by
  unfold IrArena.newRegion at hn
  split at hn
  · cases hn
  cases hn
  refine ⟨?_, h.root.imp_right fun ⟨hroot, r, hr, hp⟩ => ⟨hroot, r, ?_, hp⟩⟩
  · simp only [List.mem_append, List.mem_singleton]
    rintro r (hr | rfl)
    · exact h.fresh r hr
    · rfl
  · exact (List.getElem?_append_left (List.getElem?_eq_some_iff.mp hr).1).trans hr

theorem withCapacity_treeOk (nodes regions : Nat) : TreeOk (withCapacity nodes regions) := by
  unfold withCapacity IrArena.newRegion
  cases regions with
  | zero => exact ⟨by simp, .inl rfl⟩
  | succ regions =>
    refine ⟨?_, .inr ⟨rfl, ⟨.NONE, .NONE, .NONE, 0⟩, rfl, rfl⟩⟩
    simp

-- ---------------------------------------------------------------------------
-- Depths
-- ---------------------------------------------------------------------------

theorem TreeOk.generation (h : TreeOk a) (hr : a.region rid = .ok r) :
    a.region (.pack rid.index 0) = .ok r := by
  obtain ⟨-, hget, -⟩ := region_eq_ok.mp hr
  exact region_eq_ok.mpr ⟨RegionId.isNone_pack, hget, h.fresh r (List.mem_of_getElem? hget)⟩

theorem TreeOk.region_pack (h : TreeOk a) {i : Nat} (hi : i < a.regions.length) :
    a.region (.pack i 0) = .ok a.regions[i] :=
  region_eq_ok.mpr ⟨RegionId.isNone_pack, List.getElem?_eq_getElem hi,
    h.fresh _ (List.getElem_mem hi)⟩

end IrArena

open IrArena

variable {a : IrArena} {rid rid' x y z : RegionId} {r : Region} {d d' fuel : Nat}

theorem HasDepth.region_ok (h : HasDepth a rid d) : ∃ r, a.region rid = .ok r := by
  cases h with
  | root h _ => exact ⟨_, h⟩
  | child h _ => exact ⟨_, h⟩

theorem HasDepth.not_isNone (h : HasDepth a rid d) : rid.isNone = false := by
  obtain ⟨r, hr⟩ := h.region_ok
  exact (region_eq_ok.mp hr).1

/-- Handles of one region have one depth. -/
theorem HasDepth.congr (h : HasDepth a rid d) (hr : a.region rid = .ok r)
    (hr' : a.region rid' = .ok r) : HasDepth a rid' d := by
  cases h with
  | root h hp =>
    cases Except.ok.inj (h.symm.trans hr)
    exact .root hr' hp
  | child h hp =>
    cases Except.ok.inj (h.symm.trans hr)
    exact .child hr' hp

theorem HasDepth.unique (h : HasDepth a rid d) (h' : HasDepth a rid d') : d = d' := by
  induction h generalizing d' with
  | root h hp =>
    cases h' with
    | root _ _ => rfl
    | child h₂ hp₂ =>
      cases Except.ok.inj (h.symm.trans h₂)
      simp [hp₂.not_isNone] at hp
  | child h hp ih =>
    cases h' with
    | root h₂ hp₂ =>
      cases Except.ok.inj (h.symm.trans h₂)
      simp [hp.not_isNone] at hp₂
    | child h₂ hp₂ =>
      cases Except.ok.inj (h.symm.trans h₂)
      rw [ih hp₂]

-- ---------------------------------------------------------------------------
-- What the first phase checks
-- ---------------------------------------------------------------------------

namespace Verifier

theorem rooted_of_chainEnds (hp : ParentsExist a) (hr : a.region rid = .ok r)
    (h : parentChainEnds a fuel rid = true) : Rooted a rid := by
  induction fuel generalizing rid r with
  | zero =>
    have hnone := (region_eq_ok.mp hr).1
    simp [parentChainEnds, hnone] at h
  | succ fuel ih =>
    have hnone := (region_eq_ok.mp hr).1
    simp only [parentChainEnds, hnone, Bool.false_eq_true, ↓reduceIte, hr] at h
    rcases hp rid r hr with hroot | ⟨p, hpar⟩
    · exact ⟨0, .root hr hroot⟩
    · obtain ⟨d, hd⟩ := ih hpar h
      exact ⟨d + 1, .child hr hd⟩

theorem parentsExist_of_rooted (h : ∀ id r, a.region id = .ok r → Rooted a id) :
    ParentsExist a := by
  intro id r hr
  obtain ⟨d, hd⟩ := h id r hr
  cases hd with
  | root hr' hp =>
    cases Except.ok.inj (hr.symm.trans hr')
    exact .inl hp
  | child hr' hp =>
    cases Except.ok.inj (hr.symm.trans hr')
    exact .inr hp.region_ok

end Verifier

open Verifier

theorem Edited.treeOk {nodes regions : Nat} (h : Edited nodes regions a) : TreeOk a := by
  induction h with
  | start => exact withCapacity_treeOk _ _
  | newRegion _ hr ih => exact ih.newRegion hr
  | insert _ hi ih => exact ih.sameTree (insertNode_sameTree hi)
  | remove _ hr ih => exact ih.sameTree (removeNode_sameTree hr)

/-- The regions of an accepted arena are a forest exactly when no parent is
unknown. -/
theorem rooted_iff_parentsExist {nodes regions : Nat} (h : Edited nodes regions a)
    (hv : verify a = .ok ()) :
    (∀ id r, a.region id = .ok r → Rooted a id) ↔ ParentsExist a := by
  refine ⟨parentsExist_of_rooted, fun hp id r hr => ?_⟩
  have htree := h.treeOk
  have hslot := htree.generation hr
  have hlt : id.index < a.regions.length :=
    (List.getElem?_eq_some_iff.mp (region_eq_ok.mp hr).2.1).1
  have hends := List.all_eq_true.mp (verify_ok.mp hv).1 id.index
    (List.mem_range.mpr (Nat.lt_succ_of_lt hlt))
  simp only [hslot] at hends
  obtain ⟨d, hd⟩ := rooted_of_chainEnds hp hslot hends
  exact ⟨d, hd.congr hslot hr⟩

/-- Three regions below one another. -/
def nestedRegions : IrArena := .built do
  let (r, a) ← (IrArena.withCapacity 1 3).newRegion (.pack 0 0) .NONE
  let (_, a) ← a.newRegion r .NONE
  return a

theorem edited_nestedRegions : Edited 1 3 nestedRegions :=
  @Edited.newRegion 1 3 _ _ (.pack 1 0) (.pack 2 0) .NONE
    (@Edited.newRegion 1 3 _ _ (.pack 0 0) (.pack 1 0) .NONE .start rfl) (by decide)

theorem rooted_iff_parentsExist_nested :
    (∀ id r, nestedRegions.region id = .ok r → Rooted nestedRegions id) ↔
      ParentsExist nestedRegions :=
  rooted_iff_parentsExist edited_nestedRegions (by decide)

/-- One region below a handle that names none. -/
def strayRegion : IrArena := .built do
  let (_, a) ← (IrArena.withCapacity 1 2).newRegion (.pack 7 0) .NONE
  return a

theorem edited_strayRegion : Edited 1 2 strayRegion :=
  @Edited.newRegion 1 2 _ _ (.pack 7 0) (.pack 1 0) .NONE .start (by decide)

/-- The stray region passes. -/
theorem strayRegion_accepted : ¬ ∀ (nodes regions : Nat) (a : IrArena), Edited nodes regions a →
    verify a = .ok () → ∀ id r, a.region id = .ok r → Rooted a id := by
  intro hall
  have hregion : strayRegion.region (.pack 1 0) = .ok ⟨.pack 7 0, .NONE, .NONE, 0⟩ := by decide
  obtain ⟨d, hd⟩ := hall 1 2 strayRegion edited_strayRegion (by decide) _ _ hregion
  cases hd with
  | root h hp =>
    cases Except.ok.inj (h.symm.trans hregion)
    cases hp
  | child h hp =>
    cases Except.ok.inj (h.symm.trans hregion)
    obtain ⟨p, hp⟩ := hp.region_ok
    cases hp

end Sxla
