import Mathlib.Logic.Relation
import Sxla.Ir.Live

/-!
# Handles over whole runs

What `insertNode` and `removeNode` do to the slots, and what follows for the
handles over any run of the two: a slot's generation is twice the number of
times it was freed, less one while it is free. As long as that does not wrap,
a handle resolves to the node it was issued for until that node is removed,
and never again.
-/

namespace Sxla

open Checked

/-- A slot apart from its link to the next node of the region. -/
def NodeSlot.unlinked (s : NodeSlot) : NodeSlot :=
  { s with node := { s.node with nextInRegion := .NONE } }

namespace IrArena

variable {a b : IrArena} {id x next : NodeId} {n : Node} {region : RegionId} {i j : Nat}

-- ---------------------------------------------------------------------------
-- Inserting
-- ---------------------------------------------------------------------------

/-- The slot that the next insertion takes, the generation it gets there and
the free list behind it. -/
def nextSlot (a : IrArena) : Nat × Nat × List Nat :=
  match a.nodeFree with
  | [] => (a.slots.length, 0, [])
  | i :: free => (i, nextGeneration ((a.slots[i]?.map (·.generation)).getD 0), free)

/-- Freed slots are the difference between the slots taken and the live ones. -/
theorem nodeCount_eq (hlt : ∀ i ∈ a.nodeFree, i < a.slots.length) (hnd : a.nodeFree.Nodup) :
    a.nodeCount = a.liveSlots.length := by
  have hperm : ((List.range a.slots.length).filter (· ∈ a.nodeFree)).Perm a.nodeFree := by
    refine (List.perm_ext_iff_of_nodup (List.nodup_range.filter _) hnd).mpr fun i => ?_
    simpa using hlt i
  have hsplit := List.length_eq_length_filter_add (l := List.range a.slots.length)
    (· ∈ a.nodeFree)
  rw [List.length_range, hperm.length_eq] at hsplit
  simp only [nodeCount, liveSlots, decide_not]
  omega

structure Inserted (a : IrArena) (region : RegionId) (n : Node) (id : NodeId) (b : IrArena) :
    Prop where
  region_ok : ∃ r, a.validateRegion region = .ok r ∧
    b.slots[a.nextSlot.1]? =
      some ⟨{ n with nextInRegion := r.firstNode, region }, a.nextSlot.2.1⟩
  id_eq : id = .pack a.nextSlot.1 a.nextSlot.2.1 n.op.level
  others : ∀ j, j ≠ a.nextSlot.1 → b.slots[j]? = a.slots[j]?
  free : b.nodeFree = a.nextSlot.2.2
  regions : b.regions = a.regions.modify region.index fun r => { r with firstNode := id }
  length : b.slots.length = max a.slots.length (a.nextSlot.1 + 1)

theorem insertNode_ok (hfree : ∀ i ∈ a.nodeFree, i < a.slots.length)
    (h : a.insertNode region n = .ok (id, b)) : Inserted a region n id b := by
  unfold insertNode at h
  by_cases hover : n.nInputs > MAX_INPUTS
  · simp only [hover, ↓reduceIte] at h
    cases h
  simp only [hover, ↓reduceIte] at h
  obtain ⟨r, hr, h⟩ := bind_ok.mp h
  by_cases hfull : a.slots.length ≥ a.nodeCapacity
  · simp only [hfull, ↓reduceIte] at h
    cases h
  simp only [hfull, ↓reduceIte] at h
  split at h
  · next hnil =>
    cases h
    have hnext : a.nextSlot = (a.slots.length, 0, []) := by rw [nextSlot, hnil]
    refine ⟨⟨r, hr, ?_⟩, ?_, ?_, ?_, rfl, ?_⟩ <;> rw [hnext]
    · exact List.getElem?_concat_length
    · intro j hj
      rcases Nat.lt_or_gt_of_ne hj with hlt | hgt
      · exact List.getElem?_append_left hlt
      · have hnew : a.slots.length + 1 ≤ j := hgt
        rw [List.getElem?_eq_none (Nat.le_of_lt hgt), List.getElem?_eq_none]
        simpa [setFirstNode] using hnew
    · exact hnil
    · simp [setFirstNode]
  · next i free hcons =>
    cases h
    have hi : i < a.slots.length := hfree i (hcons ▸ List.mem_cons_self)
    have hnext : a.nextSlot =
        (i, nextGeneration ((a.slots[i]?.map (·.generation)).getD 0), free) := by
      rw [nextSlot, hcons]
    refine ⟨⟨r, hr, ?_⟩, ?_, ?_, ?_, rfl, ?_⟩ <;> rw [hnext]
    · exact List.getElem?_set_self hi
    · intro j hj
      exact List.getElem?_set_ne (Ne.symm hj)
    · rfl
    · simp [setFirstNode]
      omega

/-- The slot that an insertion takes is not live; the free list loses it. -/
theorem nextSlot_free (hlt : ∀ i ∈ a.nodeFree, i < a.slots.length) (hnd : a.nodeFree.Nodup) :
    a.nextSlot.1 ∉ a.liveSlots ∧ a.nextSlot.1 ≤ a.slots.length ∧ a.nextSlot.2.2.Nodup ∧
      a.nextSlot.1 ∉ a.nextSlot.2.2 ∧
      ∀ i, i ∈ a.nodeFree ↔ i ∈ a.nextSlot.2.2 ∨ i = a.nextSlot.1 ∧ i < a.slots.length := by
  unfold nextSlot
  split
  · next hnil =>
    refine ⟨by simp [mem_liveSlots], le_rfl, List.nodup_nil, by simp, fun i => ?_⟩
    simp [hnil]
    omega
  · next i free hcons =>
    have hmem : i ∈ a.nodeFree := hcons ▸ List.mem_cons_self
    rw [hcons, List.nodup_cons] at hnd
    refine ⟨by simp [mem_liveSlots, hmem], (hlt i hmem).le, hnd.2, hnd.1, fun j => ?_⟩
    rw [hcons, List.mem_cons]
    constructor
    · rintro (rfl | hj)
      · exact .inr ⟨rfl, hlt _ hmem⟩
      · exact .inl hj
    · rintro (hj | ⟨rfl, -⟩)
      · exact .inr hj
      · exact .inl rfl

theorem Inserted.liveSlots (h : Inserted a region n id b)
    (hlt : ∀ i ∈ a.nodeFree, i < a.slots.length) (hnd : a.nodeFree.Nodup) :
    ∀ i, i ∈ b.liveSlots ↔ i = a.nextSlot.1 ∨ i ∈ a.liveSlots := by
  obtain ⟨-, hle, -, hnotfree, hfree⟩ := nextSlot_free hlt hnd
  intro i
  rw [mem_liveSlots, mem_liveSlots, h.length, h.free, hfree i]
  by_cases hi : i = a.nextSlot.1
  · subst hi
    simp only [hnotfree, not_false_eq_true, and_true, true_or, iff_true]
    omega
  · simp only [hi, false_and, or_false, false_or]
    constructor
    · rintro ⟨hilt, hn⟩
      exact ⟨by omega, hn⟩
    · rintro ⟨hilt, hn⟩
      exact ⟨by omega, hn⟩

-- ---------------------------------------------------------------------------
-- Removing
-- ---------------------------------------------------------------------------

theorem slot_of_node (h : a.node id = .ok n) : a.slots[id.index]? = some ⟨n, id.generation⟩ := by
  unfold node at h
  split at h
  · cases h
  · next s hs =>
    split at h
    · next hg =>
      cases h
      rw [hs, ← hg]
    · cases h

theorem modifyNode_unlinked (h : a.modifyNode x (fun n => { n with nextInRegion := next }) = .ok b) :
    b.slots.map (·.unlinked) = a.slots.map (·.unlinked) := by
  obtain ⟨m, hm, rfl⟩ := map_ok.mp h
  rw [List.map_set]
  refine List.ext_getElem? fun i => ?_
  rw [List.getElem?_set]
  split
  · next hi =>
    subst hi
    have hx := slot_of_node hm
    rw [List.length_map, if_pos (index_lt_of_node hm), List.getElem?_map, hx]
    rfl
  · rfl

theorem unlinkFrom_unlinked {fuel : Nat} :
    (a.unlinkFrom id next fuel x).slots.map (·.unlinked) = a.slots.map (·.unlinked) := by
  induction fuel generalizing x with
  | zero => rfl
  | succ fuel ih =>
    unfold unlinkFrom
    split
    · rfl
    extract_lets nextOfCur
    split
    · cases h : a.modifyNode x fun n => { n with nextInRegion := next } with
      | ok b => exact modifyNode_unlinked h
      | error e => rfl
    · exact ih

/-- The arena of `removeNode` before the slot is released. -/
def unlink (a : IrArena) (id : NodeId) (n : Node) : IrArena :=
  if n.region = .NONE then a
  else
    match a.validateRegion n.region with
    | .error _ => a
    | .ok r =>
      if r.firstNode = id then a.setFirstNode n.region.index n.nextInRegion
      else a.unlinkFrom id n.nextInRegion (a.slots.length + 1) r.firstNode

def release (a : IrArena) (id : NodeId) : IrArena :=
  { a with
    slots := a.slots.modify id.index fun s =>
      { s with generation := nextGeneration s.generation }
    nodeFree := id.index :: a.nodeFree }

theorem removeNode_eq_release (h : a.node id = .ok n) :
    a.removeNode id = .ok ((a.unlink id n).release id) := by
  simp only [removeNode, h, unlink, release]
  rfl

theorem unlink_unlinked : (a.unlink id n).slots.map (·.unlinked) = a.slots.map (·.unlinked) := by
  unfold unlink
  split
  · rfl
  split
  · rfl
  split
  · rfl
  · exact unlinkFrom_unlinked

theorem unlinkFrom_nodeFree {fuel : Nat} : (a.unlinkFrom id next fuel x).nodeFree = a.nodeFree :=
  unlinkFrom_sameHandles.free

theorem unlink_nodeFree : (a.unlink id n).nodeFree = a.nodeFree := by
  unfold unlink
  split
  · rfl
  split
  · rfl
  split
  · rfl
  · exact unlinkFrom_nodeFree

/-- A removal keeps everything but links, and ends the slot's generation. -/
structure Removed (a : IrArena) (id : NodeId) (b : IrArena) : Prop where
  node_ok : ∃ n, a.node id = .ok n
  free : b.nodeFree = id.index :: a.nodeFree
  self : ∀ s, a.slots[id.index]? = some s → ∃ t, b.slots[id.index]? = some t ∧
    t.generation = nextGeneration s.generation
  others : ∀ j, j ≠ id.index →
    b.slots[j]?.map (·.unlinked) = a.slots[j]?.map (·.unlinked)
  length : b.slots.length = a.slots.length

theorem unlinked_eq {s t : NodeSlot} (h : s.unlinked = t.unlinked) :
    s.generation = t.generation ∧ s.node.op = t.node.op ∧ s.node.inputs = t.node.inputs ∧
      s.node.region = t.node.region := by
  simp only [NodeSlot.unlinked, NodeSlot.mk.injEq, Node.mk.injEq] at h
  exact ⟨h.2, h.1.1, h.1.2.2.2.2.1, h.1.2.2.2.1⟩

theorem removeNode_ok (h : a.removeNode id = .ok b) : Removed a id b := by
  obtain ⟨n, hn, -⟩ := bind_ok.mp h
  rw [removeNode_eq_release hn, Except.ok.injEq] at h
  subst h
  have hslot : ∀ j : Nat, (a.unlink id n).slots[j]?.map (·.unlinked) =
      a.slots[j]?.map (·.unlinked) := fun j => by
    rw [← List.getElem?_map, ← List.getElem?_map, unlink_unlinked]
  refine ⟨⟨n, hn⟩, ?_, fun s hs => ?_, fun j hj => ?_, ?_⟩
  · rw [release, unlink_nodeFree]
  · have hu := hslot id.index
    rw [hs, Option.map_some, Option.map_eq_some_iff] at hu
    obtain ⟨u, hu, heq⟩ := hu
    refine ⟨{ u with generation := nextGeneration u.generation }, ?_, ?_⟩
    · rw [release, List.getElem?_modify_eq, hu]
      rfl
    · rw [(unlinked_eq heq).1]
  · rw [release, List.getElem?_modify_ne _ _ (Ne.symm hj), hslot]
  · have hlen := congrArg List.length (@unlink_unlinked a id n)
    simpa [release] using hlen

theorem Removed.liveSlots (h : Removed a id b) (i : Nat) :
    i ∈ b.liveSlots ↔ i ∈ a.liveSlots ∧ i ≠ id.index := by
  rw [mem_liveSlots, mem_liveSlots, h.length, h.free, List.mem_cons, not_or, and_assoc,
    and_comm (a := i ≠ id.index)]

/-- The live slots after a removal, where `kept` lists the handles that stay. -/
theorem Removed.live_map {α : Type} {f : α → NodeId} {l kept : List α} (h : Removed a id b)
    (hl : ∀ i, i ∈ a.liveSlots ↔ i ∈ l.map fun x => (f x).index)
    (hkept : ∀ x, x ∈ kept ↔ x ∈ l ∧ (f x).index ≠ id.index) (i : Nat) :
    i ∈ b.liveSlots ↔ i ∈ kept.map fun x => (f x).index := by
  rw [h.liveSlots, hl, List.mem_map, List.mem_map]
  constructor
  · rintro ⟨⟨x, hx, rfl⟩, hne⟩
    exact ⟨x, (hkept x).mpr ⟨hx, hne⟩, rfl⟩
  · rintro ⟨x, hx, rfl⟩
    obtain ⟨hx, hne⟩ := (hkept x).mp hx
    exact ⟨⟨x, hx, rfl⟩, hne⟩

end IrArena

-- ---------------------------------------------------------------------------
-- Runs
-- ---------------------------------------------------------------------------

/-- A handle with what was inserted under it. -/
structure Issued where
  id : NodeId
  op : Op
  inputs : List ValueId
deriving DecidableEq, Repr

/-- An arena with what its user knows: every handle issued so far, those not
removed since, and the handles of the successful removals. -/
structure Session where
  arena : IrArena
  issued : List Issued
  held : List Issued
  removed : List NodeId

namespace Session

def start (nodeCapacity regionCapacity : Nat) : Session :=
  ⟨.withCapacity nodeCapacity regionCapacity, [], [], []⟩

/-- An operation that fails leaves the arena as it was. -/
inductive Step (s : Session) : Session → Prop
  | newRegion {parent r : RegionId} {owner : NodeId} {a : IrArena} :
      s.arena.newRegion parent owner = .ok (r, a) → Step s { s with arena := a }
  | insert {region : RegionId} {n : Node} {id : NodeId} {a : IrArena} :
      s.arena.insertNode region n = .ok (id, a) →
      Step s ⟨a, ⟨id, n.op, n.inputs⟩ :: s.issued, ⟨id, n.op, n.inputs⟩ :: s.held, s.removed⟩
  | remove {e : Issued} {a : IrArena} : e ∈ s.issued → s.arena.removeNode e.id = .ok a →
      Step s ⟨a, s.issued, s.held.filter (·.id ≠ e.id), e.id :: s.removed⟩

def Reachable (nodeCapacity regionCapacity : Nat) (s : Session) : Prop :=
  Relation.ReflTransGen Step (start nodeCapacity regionCapacity) s

/-- How many times a slot was freed. -/
def frees (s : Session) (i : Nat) : Nat := s.removed.countP (·.index = i)

structure Inv (s : Session) : Prop where
  free_lt : ∀ i ∈ s.arena.nodeFree, i < s.arena.slots.length
  free_nodup : s.arena.nodeFree.Nodup
  /-- A slot is bumped when it is freed and when it is reused. -/
  generation : ∀ i slot, s.arena.slots[i]? = some slot →
    slot.generation + (if i ∈ s.arena.nodeFree then 1 else 0) = 2 * s.frees i
  unused : ∀ i, s.arena.slots.length ≤ i → s.frees i = 0
  held_nodup : (s.held.map (·.id.index)).Nodup
  live : ∀ i, i ∈ s.arena.liveSlots ↔ i ∈ s.held.map (·.id.index)
  held_slot : ∀ e ∈ s.held, ∃ slot, s.arena.slots[e.id.index]? = some slot ∧
    slot.node.op = e.op ∧ slot.node.inputs = e.inputs ∧
    e.id = .pack e.id.index slot.generation e.op.level
  held_issued : ∀ e ∈ s.held, e ∈ s.issued
  stale : ∀ e ∈ s.issued, e ∉ s.held →
    e.id.index < s.arena.slots.length ∧ e.id.generation + 2 ≤ 2 * s.frees e.id.index

variable {s s' : Session}

theorem slots_withCapacity (n r : Nat) :
    (IrArena.withCapacity n r).slots = [] ∧ (IrArena.withCapacity n r).nodeFree = [] := by
  unfold IrArena.withCapacity IrArena.newRegion
  cases r <;> exact ⟨rfl, rfl⟩

theorem newRegion_slots {a b : IrArena} (h : a.newRegion parent owner = .ok (r, b)) :
    b.slots = a.slots ∧ b.nodeFree = a.nodeFree := by
  unfold IrArena.newRegion at h
  split at h
  · cases h
  · cases h
    exact ⟨rfl, rfl⟩

theorem inv_start : Inv (start n r) := by
  obtain ⟨hslots, hfree⟩ := slots_withCapacity n r
  have hs : (start n r).arena.slots = [] := hslots
  have hf : (start n r).arena.nodeFree = [] := hfree
  have hheld : (start n r).held = [] := rfl
  have hissued : (start n r).issued = [] := rfl
  refine ⟨by simp [hf], by simp [hf], by simp [hs], fun _ _ => rfl, by simp [hheld], ?_,
    by simp [hheld], by simp [hheld], by simp [hissued]⟩
  intro i
  simp [IrArena.mem_liveSlots, hs, hheld]

theorem Inv.newRegion {a : IrArena} (h : Inv s) (hslots : a.slots = s.arena.slots)
    (hfree : a.nodeFree = s.arena.nodeFree) : Inv { s with arena := a } := by
  refine ⟨?_, ?_, ?_, ?_, h.held_nodup, ?_, ?_, h.held_issued, ?_⟩
  · simpa [hslots, hfree] using h.free_lt
  · simpa [hfree] using h.free_nodup
  · simpa [hslots, hfree, frees] using h.generation
  · simpa [hslots, frees] using h.unused
  · intro i
    rw [← h.live i]
    simp only [IrArena.mem_liveSlots, hslots, hfree]
  · simpa [hslots] using h.held_slot
  · simpa [hslots, frees] using h.stale

/-- The generation that an insertion gives is the one the invariant asks for. -/
theorem Inv.nextSlot_generation (h : Inv s) (hwrap : ∀ i, s.frees i < 2 ^ 15) :
    s.arena.nextSlot.2.1 = 2 * s.frees s.arena.nextSlot.1 := by
  unfold IrArena.nextSlot
  split
  · rw [h.unused _ le_rfl]
  · next i free hcons =>
    have hmem : i ∈ s.arena.nodeFree := hcons ▸ List.mem_cons_self
    have hlt := h.free_lt i hmem
    have hgen := h.generation i _ (List.getElem?_eq_getElem hlt)
    rw [if_pos hmem] at hgen
    have := hwrap i
    simp only [List.getElem?_eq_getElem hlt, Option.map_some, Option.getD_some, nextGeneration]
    omega

theorem Inv.insert {a : IrArena} {id : NodeId} {n : Node} (h : Inv s)
    (hwrap : ∀ i, s.frees i < 2 ^ 15) (hi : s.arena.insertNode region n = .ok (id, a)) :
    Inv ⟨a, ⟨id, n.op, n.inputs⟩ :: s.issued, ⟨id, n.op, n.inputs⟩ :: s.held, s.removed⟩ := by
  have hins := IrArena.insertNode_ok h.free_lt hi
  have hgen := h.nextSlot_generation hwrap
  obtain ⟨hdead, hle, hnd, hnotfree, hfree⟩ := IrArena.nextSlot_free h.free_lt h.free_nodup
  have hindex : id.index = s.arena.nextSlot.1 := by rw [hins.id_eq]; rfl
  obtain ⟨r, -, hself⟩ := hins.region_ok
  have hfresh : id.index ∉ s.held.map (·.id.index) := by
    rw [← h.live, hindex]
    exact hdead
  have hother : ∀ {j}, j ≠ id.index → a.slots[j]? = s.arena.slots[j]? := fun hj =>
    hins.others _ (hindex ▸ hj)
  refine ⟨?_, ?_, ?_, ?_, ?_, ?_, ?_, ?_, ?_⟩
  all_goals dsimp only
  · intro i hi
    rw [hins.free] at hi
    have := h.free_lt i ((hfree i).mpr (.inl hi))
    rw [hins.length]
    omega
  · rw [hins.free]
    exact hnd
  · intro i slot hslot
    rw [hins.free]
    by_cases hi : i = id.index
    · rw [hi, hindex] at hslot ⊢
      rw [hself, Option.some.injEq] at hslot
      subst hslot
      rw [if_neg hnotfree]
      exact hgen
    · rw [hother hi] at hslot
      refine Eq.trans ?_ (h.generation i slot hslot)
      have hne : ¬ (i = s.arena.nextSlot.1 ∧ i < s.arena.slots.length) := by
        rw [← hindex]
        exact fun he => hi he.1
      simp only [hfree i, hne, or_false]
  · intro i hi
    rw [hins.length] at hi
    exact h.unused i (by omega)
  · rw [List.map_cons, List.nodup_cons]
    exact ⟨hfresh, h.held_nodup⟩
  · intro i
    rw [hins.liveSlots h.free_lt h.free_nodup, List.map_cons, List.mem_cons, h.live i, hindex]
  · intro e he
    rcases List.mem_cons.mp he with rfl | he
    · refine ⟨_, hindex ▸ hself, rfl, rfl, ?_⟩
      rw [hins.id_eq]
      rfl
    · have hne : e.id.index ≠ id.index := fun heq =>
        hfresh (heq ▸ List.mem_map.mpr ⟨e, he, rfl⟩)
      rw [hother hne]
      exact h.held_slot e he
  · intro e he
    rcases List.mem_cons.mp he with rfl | he
    · exact List.mem_cons_self
    · exact List.mem_cons_of_mem _ (h.held_issued e he)
  · intro e he hnot
    rw [List.mem_cons, not_or] at hnot
    rcases List.mem_cons.mp he with rfl | he
    · exact absurd rfl hnot.1
    · obtain ⟨hlt, hg⟩ := h.stale e he hnot.2
      exact ⟨by rw [hins.length]; omega, hg⟩

theorem Inv.remove {a : IrArena} {e : Issued} (h : Inv s) (he : e ∈ s.issued)
    (hwrap : 2 * (s.frees e.id.index + 1) < 2 ^ 16) (hr : s.arena.removeNode e.id = .ok a) :
    Inv ⟨a, s.issued, s.held.filter (·.id ≠ e.id), e.id :: s.removed⟩ := by
  have hrem := IrArena.removeNode_ok hr
  obtain ⟨n, hn⟩ := hrem.node_ok
  have hslot := IrArena.slot_of_node hn
  have hlt := IrArena.index_lt_of_node hn
  have hgen : e.id.generation + (if e.id.index ∈ s.arena.nodeFree then 1 else 0) =
      2 * s.frees e.id.index := h.generation _ _ hslot
  have hheld : e ∈ s.held := by
    by_contra hnot
    have := (h.stale e he hnot).2
    split at hgen <;> omega
  have hlive : e.id.index ∈ s.arena.liveSlots := by
    rw [h.live]
    exact List.mem_map.mpr ⟨e, hheld, rfl⟩
  have hnotfree := (IrArena.mem_liveSlots.mp hlive).2
  rw [if_neg hnotfree] at hgen
  have hgen : e.id.generation = 2 * s.frees e.id.index := by simpa using hgen
  have hsame : ∀ x ∈ s.held, x.id.index = e.id.index → x = e := fun x hx hi =>
    List.inj_on_of_nodup_map h.held_nodup hx hheld hi
  have hkept : ∀ x, x ∈ s.held.filter (·.id ≠ e.id) ↔ x ∈ s.held ∧ x.id.index ≠ e.id.index := by
    intro x
    rw [List.mem_filter, decide_eq_true_eq]
    refine and_congr_right fun hx => not_congr ⟨fun hi => by rw [hi], fun hi => ?_⟩
    rw [hsame x hx hi]
  have hfrees : ∀ i, frees ⟨a, s.issued, s.held.filter (·.id ≠ e.id), e.id :: s.removed⟩ i =
      s.frees i + if e.id.index = i then 1 else 0 := by
    intro i
    simp [frees, List.countP_cons]
  have hother : ∀ {j slot}, j ≠ e.id.index → a.slots[j]? = some slot →
      ∃ t, s.arena.slots[j]? = some t ∧ t.unlinked = slot.unlinked := by
    intro j slot hj hslot
    have ho := hrem.others j hj
    rw [hslot, Option.map_some, eq_comm, Option.map_eq_some_iff] at ho
    exact ho
  refine ⟨?_, ?_, ?_, ?_, ?_, ?_, ?_, ?_, ?_⟩
  all_goals dsimp only
  · rw [hrem.free, hrem.length]
    exact List.forall_mem_cons.mpr ⟨hlt, h.free_lt⟩
  · rw [hrem.free, List.nodup_cons]
    exact ⟨hnotfree, h.free_nodup⟩
  · intro i slot hi
    rw [hfrees, hrem.free]
    by_cases hie : i = e.id.index
    · subst hie
      obtain ⟨t, ht, htgen⟩ := hrem.self _ hslot
      rw [ht, Option.some.injEq] at hi
      subst hi
      have hnext : t.generation = 2 * s.frees e.id.index + 1 := by
        rw [htgen, nextGeneration]
        dsimp only
        omega
      simp only [List.mem_cons, true_or, ↓reduceIte]
      omega
    · obtain ⟨t, ht, hu⟩ := hother hie hi
      have hg := h.generation i t ht
      rw [(IrArena.unlinked_eq hu).1] at hg
      simpa [hie, Ne.symm hie] using hg
  · intro i hi
    rw [hrem.length] at hi
    rw [hfrees, h.unused i hi, if_neg (by omega)]
  · exact h.held_nodup.sublist (List.filter_sublist.map _)
  · exact hrem.live_map h.live hkept
  · intro x hx
    obtain ⟨hx, hne⟩ := (hkept x).mp hx
    obtain ⟨t, ht, hop, hin, hid⟩ := h.held_slot x hx
    have ho := hrem.others _ hne
    rw [ht, Option.map_some, Option.map_eq_some_iff] at ho
    obtain ⟨u, hu, heq⟩ := ho
    obtain ⟨hgu, hou, hiu, -⟩ := IrArena.unlinked_eq heq
    exact ⟨u, hu, hou.trans hop, hiu.trans hin, by rw [hgu]; exact hid⟩
  · intro x hx
    exact h.held_issued x ((hkept x).mp hx).1
  · intro x hx hnot
    rw [hkept, not_and_or, not_not] at hnot
    rw [hrem.length, hfrees]
    by_cases hxh : x ∈ s.held
    · have hxi := hnot.resolve_left (not_not_intro hxh)
      rw [hsame x hxh hxi, if_pos rfl]
      exact ⟨hlt, by omega⟩
    · obtain ⟨hxlt, hxg⟩ := h.stale x hx hxh
      exact ⟨hxlt, by omega⟩

theorem frees_mono (h : Step s s') (i : Nat) : s.frees i ≤ s'.frees i := by
  cases h with
  | newRegion => exact le_rfl
  | insert => exact le_rfl
  | remove => exact (List.sublist_cons_self _ _).countP_le

/-- The invariant holds in every run in which no generation wraps. -/
theorem Reachable.inv (h : Reachable n r s) (hwrap : ∀ i, s.frees i < 2 ^ 15) : Inv s := by
  induction h with
  | refl => exact inv_start
  | tail _ hstep ih =>
    have hbefore := fun i => lt_of_le_of_lt (frees_mono hstep i) (hwrap i)
    have hinv := ih hbefore
    cases hstep with
    | newRegion h => exact hinv.newRegion (newRegion_slots h).1 (newRegion_slots h).2
    | insert h => exact hinv.insert hbefore h
    | @remove e a he h =>
      refine hinv.remove he ?_ h
      have := hwrap e.id.index
      simp only [frees, List.countP_cons, decide_true, ↓reduceIte] at this
      simp only [frees]
      omega

/-- What a caller may rely on. -/
structure Safe (s : Session) : Prop where
  /-- A handle resolves to what was inserted under it until it is removed. -/
  resolves : ∀ e ∈ s.issued,
    (∃ n, s.arena.node e.id = .ok n ∧ n.op = e.op ∧ n.inputs = e.inputs) ↔ e ∈ s.held
  distinct : (s.held.map (·.id.index)).Nodup
  free_nodup : s.arena.nodeFree.Nodup
  free_iff : ∀ i, i ∈ s.arena.nodeFree ↔
    i < s.arena.slotCount ∧ i ∉ s.held.map (·.id.index)
  visits : s.arena.liveIds.Perm (s.held.map (·.id))
  count : s.arena.nodeCount = s.held.length

theorem Inv.resolves (h : Inv s) {e : Issued} (he : e ∈ s.issued) :
    (∃ n, s.arena.node e.id = .ok n ∧ n.op = e.op ∧ n.inputs = e.inputs) ↔ e ∈ s.held := by
  constructor
  · rintro ⟨n, hn, -⟩
    by_contra hnot
    have hgen : e.id.generation + (if e.id.index ∈ s.arena.nodeFree then 1 else 0) =
        2 * s.frees e.id.index := h.generation _ _ (IrArena.slot_of_node hn)
    have hstale := (h.stale e he hnot).2
    split at hgen <;> omega
  · intro hheld
    obtain ⟨slot, hslot, hop, hin, hid⟩ := h.held_slot e hheld
    refine ⟨slot.node, ?_, hop, hin⟩
    have hgen : slot.generation = e.id.generation := by rw [hid]; rfl
    simp [IrArena.node, hslot, hgen]

theorem Inv.live_of_held (h : Inv s) {e : Issued} (he : e ∈ s.held) :
    ∃ n, (e.id, n) ∈ s.arena.liveNodes := by
  obtain ⟨slot, hslot, hop, -, hid⟩ := h.held_slot e he
  have hlive := (h.live e.id.index).mpr (List.mem_map.mpr ⟨e, he, rfl⟩)
  refine ⟨slot.node, IrArena.mem_liveNodes.mpr ⟨(IrArena.mem_liveSlots.mp hlive).2, ?_⟩⟩
  exact ⟨slot.generation, hslot, hop ▸ hid⟩

theorem Inv.liveIds_perm (h : Inv s) : s.arena.liveIds.Perm (s.held.map (·.id)) := by
  have hnd : (s.held.map (·.id)).Nodup := by
    refine List.Nodup.of_map NodeId.index ?_
    rw [List.map_map]
    exact h.held_nodup
  refine (List.perm_ext_iff_of_nodup s.arena.liveIds_nodup hnd).mpr fun id => ?_
  constructor
  · intro hid
    obtain ⟨⟨id, n⟩, hn, rfl⟩ := List.mem_map.mp hid
    obtain ⟨e, he, hi⟩ := List.mem_map.mp ((h.live _).mp (IrArena.index_mem_liveSlots hn))
    obtain ⟨m, hm⟩ := h.live_of_held he
    exact List.mem_map.mpr ⟨e, he, (IrArena.live_unique hm hn hi).1⟩
  · intro hid
    obtain ⟨e, he, rfl⟩ := List.mem_map.mp hid
    obtain ⟨m, hm⟩ := h.live_of_held he
    exact List.mem_map.mpr ⟨(e.id, m), hm, rfl⟩

theorem Inv.nodeCount (h : Inv s) : s.arena.nodeCount = s.held.length := by
  rw [IrArena.nodeCount_eq h.free_lt h.free_nodup, ← IrArena.map_index_liveIds, List.length_map,
    h.liveIds_perm.length_eq, List.length_map]

/-- The handles stay safe in every run that frees no slot 2^15 times. -/
theorem safe_of_reachable (h : Reachable n r s) (hwrap : ∀ i, s.frees i < 2 ^ 15) : Safe s := by
  have hinv := h.inv hwrap
  refine ⟨fun e he => hinv.resolves he, hinv.held_nodup, hinv.free_nodup, fun i => ?_,
    hinv.liveIds_perm, hinv.nodeCount⟩
  rw [← hinv.live, IrArena.mem_liveSlots, IrArena.slotCount]
  have := hinv.free_lt i
  tauto

/-- A node is removed and another one takes its slot. -/
def reusedSlot : Session where
  arena := .built do
    let a := IrArena.withCapacity 4 2
    let (first, a) ← a.insertNode a.rootRegion (.new (.constI64 0) a.rootRegion [] (.scalar .i64))
    let a ← a.removeNode first
    let (_, a) ← a.insertNode a.rootRegion (.new (.constI64 1) a.rootRegion [] (.scalar .i64))
    return a
  issued := [⟨.pack 0 2 .graph, .constI64 1, []⟩, ⟨.pack 0 0 .graph, .constI64 0, []⟩]
  held := [⟨.pack 0 2 .graph, .constI64 1, []⟩]
  removed := [.pack 0 0 .graph]

theorem reachable_reusedSlot : Reachable 4 2 reusedSlot := by
  have hfirst : Relation.ReflTransGen Step (start 4 2) _ :=
    .tail .refl (@Step.insert _ (.pack 0 0) (.new (.constI64 0) (.pack 0 0) [] (.scalar .i64))
      _ _ rfl)
  have hremoved := hfirst.tail (.remove List.mem_cons_self rfl)
  exact hremoved.tail (@Step.insert _ (.pack 0 0)
    (.new (.constI64 1) (.pack 0 0) [] (.scalar .i64)) _ _ rfl)

theorem safe_of_reachable_reusedSlot : Safe reusedSlot :=
  safe_of_reachable reachable_reusedSlot fun _ =>
    lt_of_le_of_lt List.countP_le_length (by decide)

end Session

end Sxla
