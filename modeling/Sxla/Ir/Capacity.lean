import Sxla.Ir.RegionLists

/-!
# When an insertion finds room

The guard of `insertNode` compares the slots ever taken with the capacity,
ahead of the free list. Slots are never given back, so once every slot has
been taken the answer is `Exhausted`, also while freed slots wait to be
reused.
-/

namespace Sxla

open Checked

/-- The arenas that insertions, removals and new regions leave, each with any
arguments. -/
inductive Edited (nodes regions : Nat) : IrArena → Prop
  | start : Edited nodes regions (.withCapacity nodes regions)
  | newRegion {a b : IrArena} {parent r : RegionId} {owner : NodeId}
      (h : Edited nodes regions a) (hr : a.newRegion parent owner = .ok (r, b)) :
      Edited nodes regions b
  | insert {a b : IrArena} {region : RegionId} {n : Node} {id : NodeId}
      (h : Edited nodes regions a) (hi : a.insertNode region n = .ok (id, b)) :
      Edited nodes regions b
  | remove {a b : IrArena} {id : NodeId}
      (h : Edited nodes regions a) (hr : a.removeNode id = .ok b) : Edited nodes regions b

namespace IrArena

variable {a b : IrArena} {id x : NodeId} {n : Node} {region : RegionId} {nodes regions : Nat}

theorem insertNode_capacity (h : a.insertNode region n = .ok (id, b)) :
    b.nodeCapacity = a.nodeCapacity ∧ a.slots.length < a.nodeCapacity := by
  unfold insertNode at h
  by_cases hover : n.nInputs > MAX_INPUTS
  · simp only [hover, ↓reduceIte] at h
    cases h
  simp only [hover, ↓reduceIte] at h
  obtain ⟨r, hr, h⟩ := bind_ok.mp h
  by_cases hfull : a.slots.length ≥ a.nodeCapacity
  · simp only [hfull, ↓reduceIte] at h
    cases h
  simp only [hfull, ↓reduceIte] at h
  split at h
  · cases h
    exact ⟨rfl, Nat.lt_of_not_le hfull⟩
  · cases h
    exact ⟨rfl, Nat.lt_of_not_le hfull⟩

/-- The guard is all that refuses a node that fits, in a region that exists. -/
theorem insertNode_cases {r : Region} (hr : a.validateRegion region = .ok r)
    (hn : n.nInputs ≤ MAX_INPUTS) :
    (a.nodeCapacity ≤ a.slots.length ∧ a.insertNode region n = .error .exhausted) ∨
      (a.slots.length < a.nodeCapacity ∧ ∃ id b, a.insertNode region n = .ok (id, b)) := by
  unfold insertNode
  simp only [Nat.not_lt.mpr hn, ↓reduceIte, hr, bind, Except.bind]
  by_cases hfull : a.slots.length ≥ a.nodeCapacity
  · refine .inl ⟨hfull, ?_⟩
    simp only [hfull, ↓reduceIte]
    rfl
  · refine .inr ⟨Nat.lt_of_not_le hfull, ?_⟩
    simp only [hfull, ↓reduceIte]
    cases a.nodeFree with
    | nil => exact ⟨_, _, rfl⟩
    | cons i free => exact ⟨_, _, rfl⟩

theorem unlinkFrom_capacity {next : NodeId} {fuel : Nat} :
    (a.unlinkFrom id next fuel x).nodeCapacity = a.nodeCapacity := by
  induction fuel generalizing x with
  | zero => rfl
  | succ fuel ih =>
    unfold unlinkFrom
    split
    · rfl
    extract_lets nextOfCur
    split
    · cases h : a.modifyNode x fun n => { n with nextInRegion := next } with
      | ok b =>
        obtain ⟨m, -, rfl⟩ := map_ok.mp h
        rfl
      | error e => rfl
    · exact ih

theorem unlink_capacity : (a.unlink id n).nodeCapacity = a.nodeCapacity := by
  unfold unlink
  split
  · rfl
  split
  · rfl
  split
  · rfl
  · exact unlinkFrom_capacity

theorem removeNode_capacity (h : a.removeNode id = .ok b) :
    b.nodeCapacity = a.nodeCapacity := by
  obtain ⟨n, hn, -⟩ := bind_ok.mp h
  rw [removeNode_eq_release hn, Except.ok.injEq] at h
  subst h
  exact unlink_capacity

/-- Removals keep the regions valid. -/
theorem removeNode_validateRegion {r : Region} (h : a.removeNode id = .ok b)
    (hr : a.validateRegion region = .ok r) : ∃ r', b.validateRegion region = .ok r' := by
  obtain ⟨n, hn, -⟩ := bind_ok.mp h
  rw [removeNode_eq_release hn, Except.ok.injEq] at h
  subst h
  refine Listing.validateRegion_congr hr fun r₀ hr₀ => ?_
  have hgen := congrArg (·[region.index]?) (@Listing.unlink_generations a id n)
  simp only [List.getElem?_map, hr₀, Option.map_some, Option.map_eq_some_iff] at hgen
  exact hgen

end IrArena

namespace Edited

variable {a : IrArena} {nodes regions : Nat}

/-- What the guard and the free list look at. -/
structure Inv (nodes : Nat) (a : IrArena) : Prop where
  capacity : a.nodeCapacity = nodes
  length : a.slots.length ≤ nodes
  free_lt : ∀ i ∈ a.nodeFree, i < a.slots.length

theorem inv (h : Edited nodes regions a) : Inv nodes a := by
  induction h with
  | start =>
    obtain ⟨hslots, hfree⟩ := Session.slots_withCapacity nodes regions
    refine ⟨?_, by simp [hslots], by simp [hfree]⟩
    unfold IrArena.withCapacity IrArena.newRegion
    cases regions <;> rfl
  | newRegion _ hr ih =>
    unfold IrArena.newRegion at hr
    split at hr
    · cases hr
    · cases hr
      exact ⟨ih.capacity, ih.length, ih.free_lt⟩
  | @insert a b region n id _ hi ih =>
    obtain ⟨hcap, hlt⟩ := IrArena.insertNode_capacity hi
    have hins := IrArena.insertNode_ok ih.free_lt hi
    have hle : a.nextSlot.1 ≤ a.slots.length := by
      unfold IrArena.nextSlot
      split
      · exact Nat.le_refl _
      · next i free hcons => exact Nat.le_of_lt (ih.free_lt i (hcons ▸ List.mem_cons_self))
    refine ⟨hcap.trans ih.capacity, ?_, fun i hi => ?_⟩
    · rw [hins.length, ← ih.capacity]
      omega
    · rw [hins.free] at hi
      rw [hins.length]
      have hmem : i ∈ a.nodeFree := by
        unfold IrArena.nextSlot at hi
        split at hi
        · cases hi
        · next hcons => exact hcons ▸ List.mem_cons_of_mem _ hi
      exact Nat.lt_of_lt_of_le (ih.free_lt i hmem) (Nat.le_max_left ..)
  | @remove a b id _ hr ih =>
    have hrem := IrArena.removeNode_ok hr
    obtain ⟨n, hn⟩ := hrem.node_ok
    refine ⟨(IrArena.removeNode_capacity hr).trans ih.capacity, hrem.length ▸ ih.length, ?_⟩
    rw [hrem.free, hrem.length]
    exact List.forall_mem_cons.mpr ⟨IrArena.index_lt_of_node hn, ih.free_lt⟩

/-- The slots are all live where none of them is free. -/
theorem Inv.liveSlots_eq (h : Inv nodes a) :
    a.liveSlots.length = nodes ↔ a.slots.length = nodes ∧ a.nodeFree = [] := by
  have hlen : a.liveSlots.length ≤ a.slots.length := by
    have hle := List.length_filter_le (· ∉ a.nodeFree) (List.range a.slots.length)
    simpa [IrArena.liveSlots] using hle
  constructor
  · intro hlive
    have hfull : a.slots.length = nodes := Nat.le_antisymm h.length (hlive ▸ hlen)
    refine ⟨hfull, List.eq_nil_iff_forall_not_mem.mpr fun i hi => ?_⟩
    have hall : a.liveSlots = List.range a.slots.length := by
      refine List.Sublist.eq_of_length List.filter_sublist ?_
      rw [List.length_range, hfull]
      exact hlive
    have hmem : i ∈ a.liveSlots := by
      rw [hall]
      exact List.mem_range.mpr (h.free_lt i hi)
    exact (IrArena.mem_liveSlots.mp hmem).2 hi
  · rintro ⟨hfull, hfree⟩
    simp [IrArena.liveSlots, hfree, hfull]

end Edited

/-- An insertion fails with `Exhausted` exactly when all `nodes` slots are
live, and a removal makes room for one more node, in exactly the arenas that
do not have all slots taken with one of them free. -/
theorem insert_exhausted_iff (nodes regions : Nat) (a : IrArena) (h : Edited nodes regions a)
    (region : RegionId) (r : Region) (hr : a.validateRegion region = .ok r) (n : Node)
    (hn : n.nInputs ≤ MAX_INPUTS) :
    ((a.insertNode region n = .error .exhausted ↔ a.liveSlots.length = nodes) ↔
      ¬ (a.slots.length = nodes ∧ a.nodeFree ≠ [])) ∧
    ∀ id b, a.removeNode id = .ok b →
      ((∃ id' c, b.insertNode region n = .ok (id', c)) ↔
        ¬ (b.slots.length = nodes ∧ b.nodeFree ≠ [])) := by
  have hinv := h.inv
  constructor
  · have hlen := hinv.length
    rw [hinv.liveSlots_eq]
    rcases IrArena.insertNode_cases hr hn with ⟨hfull, he⟩ | ⟨hroom, id, b, ho⟩
    · rw [hinv.capacity] at hfull
      have heq : a.slots.length = nodes := Nat.le_antisymm hlen hfull
      simp [he, heq]
    · rw [hinv.capacity] at hroom
      simp [ho, Nat.ne_of_lt hroom]
  · intro id b hb
    have hinv' := (Edited.remove h hb).inv
    have hfree : b.nodeFree ≠ [] := by simp [(IrArena.removeNode_ok hb).free]
    obtain ⟨r', hr'⟩ := IrArena.removeNode_validateRegion hb hr
    have hlen := hinv'.length
    rcases IrArena.insertNode_cases hr' hn with ⟨hfull, he⟩ | ⟨hroom, id', c, ho⟩
    · rw [hinv'.capacity] at hfull
      have heq : b.slots.length = nodes := Nat.le_antisymm hlen hfull
      simp [he, heq, hfree]
    · rw [hinv'.capacity] at hroom
      simp [ho, Nat.ne_of_lt hroom]

def oneConst : Node := .new (.constI64 1) (.pack 0 0) [] (.scalar .i64)

/-- One node in an arena for one. -/
def filled : IrArena := .built do
  let (_, a) ← (IrArena.withCapacity 1 1).insertNode (.pack 0 0) oneConst
  return a

/-- The same arena after the node was removed. -/
def emptied : IrArena := .built (filled.removeNode (.pack 0 0 .graph))

theorem edited_filled : Edited 1 1 filled :=
  @Edited.insert 1 1 _ _ (.pack 0 0) oneConst (.pack 0 0 .graph) .start (by decide)

theorem edited_emptied : Edited 1 1 emptied :=
  @Edited.remove 1 1 _ _ (.pack 0 0 .graph) edited_filled (by decide)

theorem insert_exhausted_iff_filled :
    filled.insertNode (.pack 0 0) oneConst = .error .exhausted ↔ filled.liveSlots.length = 1 :=
  (insert_exhausted_iff 1 1 filled edited_filled (.pack 0 0)
    ⟨.NONE, .pack 0 0 .graph, .NONE, 0⟩ (by decide) oneConst (by decide)).1.mpr (by decide)

/-- No node is live in the emptied arena, and there is no room for one. -/
theorem emptied_exhausted : ¬ ∀ (nodes regions : Nat) (a : IrArena), Edited nodes regions a →
    ∀ (region : RegionId) (r : Region), a.validateRegion region = .ok r →
    ∀ n : Node, n.nInputs ≤ MAX_INPUTS →
      (a.insertNode region n = .error .exhausted ↔ a.liveSlots.length = nodes) ∧
      ∀ id b, a.removeNode id = .ok b → ∃ id' c, b.insertNode region n = .ok (id', c) := by
  intro hall
  have hlive := (hall 1 1 emptied edited_emptied (.pack 0 0) ⟨.NONE, .NONE, .NONE, 0⟩ (by decide)
    oneConst (by decide)).1.mp (by decide)
  exact absurd hlive (by decide)

end Sxla
