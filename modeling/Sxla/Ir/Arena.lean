import Mathlib.Data.List.Nodup
import Sxla.Ir.Op

/-!
# The node and region arena

Nodes live in numbered slots, each with a generation that removal and reuse
bump; freed slots form a stack. A node is live when its slot is not on that
stack, while `node` checks only the range and the generation, as the source
does.

Regions are never freed, so their free list and generation table are left
out: a region keeps the generation it was created with.
-/

namespace Sxla

def MAX_INPUTS : Nat := 6

def MAX_OUTPUTS : Nat := 2

/-- `inputs` holds the used part of the source's array, so its length is
`n_inputs`. -/
structure Node where
  op : Op
  ty : Ty
  ty1 : Ty
  region : RegionId
  inputs : List ValueId
  effectIn : ValueId
  nextInRegion : NodeId
deriving DecidableEq, Repr

namespace Node

def new (op : Op) (region : RegionId) (inputs : List ValueId) (ty : Ty) : Node :=
  { op, ty, ty1 := .none, region, inputs := inputs.take MAX_INPUTS
    effectIn := .NONE, nextInRegion := .NONE }

def nInputs (n : Node) : Nat := n.inputs.length

/-- What a loop `for i in 0..n_inputs` guarded by `i < MAX_INPUTS` visits. -/
def valueInputs (n : Node) : List ValueId := n.inputs.take MAX_INPUTS

end Node

structure Region where
  parent : RegionId
  firstNode : NodeId
  owner : NodeId
  generation : Nat
deriving DecidableEq, Repr

inductive ArenaError where
  | exhausted
  | inputOverflow
  | outputOverflow
  | unknownNode
  | unknownRegion
deriving DecidableEq, Repr

/-- `nodes[i]` and `node_gen[i]`. -/
structure NodeSlot where
  node : Node
  generation : Nat
deriving DecidableEq, Repr

structure IrArena where
  slots : List NodeSlot
  /-- Freed slots, the next one to be reused first. -/
  nodeFree : List Nat
  regions : List Region
  root : RegionId
  nodeCapacity : Nat
  regionCapacity : Nat
deriving DecidableEq, Repr

/-- `u16::wrapping_add(1)`. -/
def nextGeneration (g : Nat) : Nat := (g + 1) % 2 ^ 16

namespace IrArena

-- ---------------------------------------------------------------------------
-- Regions
-- ---------------------------------------------------------------------------

def rootRegion (a : IrArena) : RegionId := a.root

def regionCount (a : IrArena) : Nat := a.regions.length

def newRegion (a : IrArena) (parent : RegionId) (owner : NodeId) :
    Except ArenaError (RegionId × IrArena) :=
  if a.regions.length ≥ a.regionCapacity then
    .error .exhausted
  else
    .ok (.pack a.regions.length 0,
      { a with regions := a.regions ++ [⟨parent, .NONE, owner, 0⟩] })

def withCapacity (nodeCapacity regionCapacity : Nat) : IrArena :=
  let arena : IrArena := ⟨[], [], [], .NONE, nodeCapacity, regionCapacity⟩
  match arena.newRegion .NONE .NONE with
  | .ok (root, arena) => { arena with root }
  | .error _ => arena

def validateRegion (a : IrArena) (id : RegionId) : Except ArenaError Region :=
  if id.isNone then
    .error .unknownRegion
  else
    match a.regions[id.index]? with
    | none => .error .unknownRegion
    | some r => if r.generation = id.generation then .ok r else .error .unknownRegion

def region (a : IrArena) (id : RegionId) : Except ArenaError Region := a.validateRegion id

def setFirstNode (a : IrArena) (slot : Nat) (first : NodeId) : IrArena :=
  { a with regions := a.regions.modify slot fun r => { r with firstNode := first } }

-- ---------------------------------------------------------------------------
-- Nodes
-- ---------------------------------------------------------------------------

def slotCount (a : IrArena) : Nat := a.slots.length

def nodeCount (a : IrArena) : Nat := a.slots.length - a.nodeFree.length

def node (a : IrArena) (id : NodeId) : Except ArenaError Node :=
  match a.slots[id.index]? with
  | none => .error .unknownNode
  | some s => if s.generation = id.generation then .ok s.node else .error .unknownNode

/-- `node_mut` followed by a write through the reference. -/
def modifyNode (a : IrArena) (id : NodeId) (f : Node → Node) : Except ArenaError IrArena :=
  (a.node id).map fun n =>
    { a with slots := a.slots.set id.index ⟨f n, id.generation⟩ }

/-- Links the node at the head of its region's list. -/
def insertNode (a : IrArena) (region : RegionId) (node : Node) :
    Except ArenaError (NodeId × IrArena) := do
  if node.nInputs > MAX_INPUTS then
    throw .inputOverflow
  let r ← a.validateRegion region
  if a.slots.length ≥ a.nodeCapacity then
    throw .exhausted
  let node := { node with nextInRegion := r.firstNode, region }
  match a.nodeFree with
  | [] =>
    let id := NodeId.pack a.slots.length 0 node.op.level
    let a' : IrArena := { a with slots := a.slots ++ [⟨node, 0⟩] }
    return (id, a'.setFirstNode region.index id)
  | idx :: free =>
    let generation := nextGeneration ((a.slots[idx]?.map (·.generation)).getD 0)
    let id := NodeId.pack idx generation node.op.level
    let a' : IrArena :=
      { a with slots := a.slots.set idx ⟨node, generation⟩, nodeFree := free }
    return (id, a'.setFirstNode region.index id)

/-- Walks the list from `cur` and unlinks `id` behind the first node that
points at it. -/
def unlinkFrom (a : IrArena) (id removedNext : NodeId) : Nat → NodeId → IrArena
  | 0, _ => a
  | fuel + 1, cur =>
    if cur = .NONE then a
    else
      let next := match a.node cur with
        | .ok n => n.nextInRegion
        | .error _ => .NONE
      if next = id then
        match a.modifyNode cur fun n => { n with nextInRegion := removedNext } with
        | .ok a' => a'
        | .error _ => a
      else
        unlinkFrom a id removedNext fuel next

/-- Unlinks the node from its region's list, then frees its slot. -/
def removeNode (a : IrArena) (id : NodeId) : Except ArenaError IrArena := do
  let n ← a.node id
  let unlinked :=
    if n.region = .NONE then a
    else
      match a.validateRegion n.region with
      | .error _ => a
      | .ok r =>
        if r.firstNode = id then
          a.setFirstNode n.region.index n.nextInRegion
        else
          a.unlinkFrom id n.nextInRegion (a.slots.length + 1) r.firstNode
  return { unlinked with
    slots := unlinked.slots.modify id.index fun s =>
      { s with generation := nextGeneration s.generation }
    nodeFree := id.index :: unlinked.nodeFree }

def valueOf (a : IrArena) (node : NodeId) (slot : Nat) : Except ArenaError ValueId := do
  if slot ≥ MAX_OUTPUTS then
    throw .outputOverflow
  let n ← a.node node
  if slot = 1 ∧ n.ty1 = .none then
    throw .outputOverflow
  return .fromNode node slot

/-- The arena that a sequence of edits leaves; an empty one when an edit
failed. -/
def built (edits : Except ArenaError IrArena) : IrArena :=
  match edits with
  | .ok a => a
  | .error _ => .withCapacity 1 1

-- ---------------------------------------------------------------------------
-- Live nodes
-- ---------------------------------------------------------------------------

def liveSlots (a : IrArena) : List Nat :=
  (List.range a.slots.length).filter (· ∉ a.nodeFree)

/-- What `for_each_live_node` visits, in its order. -/
def liveNodes (a : IrArena) : List (NodeId × Node) :=
  a.liveSlots.filterMap fun i =>
    a.slots[i]?.map fun s => (.pack i s.generation s.node.op.level, s.node)

def liveIds (a : IrArena) : List NodeId := a.liveNodes.map (·.1)

/-- What `for_each_region` visits, in its order. -/
def allRegions (a : IrArena) : List (RegionId × Region) :=
  a.regions.zipIdx.map fun (r, i) => (.pack i r.generation, r)

variable {a : IrArena} {id id' : NodeId} {n n' : Node}

theorem mem_liveSlots :
    i ∈ a.liveSlots ↔ i < a.slots.length ∧ i ∉ a.nodeFree := by
  simp [liveSlots]

theorem mem_liveNodes :
    (id, n) ∈ a.liveNodes ↔
      id.index ∉ a.nodeFree ∧ ∃ g, a.slots[id.index]? = some ⟨n, g⟩ ∧
        id = .pack id.index g n.op.level := by
  simp only [liveNodes, List.mem_filterMap, mem_liveSlots, Option.map_eq_some_iff, Prod.mk.injEq]
  constructor
  · rintro ⟨i, ⟨_, hf⟩, s, hs, rfl, rfl⟩
    exact ⟨hf, s.generation, hs, rfl⟩
  · rintro ⟨hf, g, hs, hid⟩
    exact ⟨id.index, ⟨(List.getElem?_eq_some_iff.mp hs).1, hf⟩, ⟨n, g⟩, hs, hid.symm, rfl⟩

theorem liveSlots_nodup (a : IrArena) : a.liveSlots.Nodup :=
  List.nodup_range.filter _

theorem map_index_liveNodes (a : IrArena) :
    a.liveNodes.map (·.1.index) = a.liveSlots := by
  rw [liveNodes, List.map_filterMap]
  conv_rhs => rw [← List.filterMap_some (l := a.liveSlots)]
  refine List.filterMap_congr fun i hi => ?_
  rw [List.getElem?_eq_getElem (mem_liveSlots.mp hi).1]
  simp

theorem map_index_liveIds (a : IrArena) : a.liveIds.map (·.index) = a.liveSlots := by
  rw [← map_index_liveNodes, liveIds, List.map_map]
  rfl

theorem liveIds_nodup (a : IrArena) : a.liveIds.Nodup := by
  have h := a.liveSlots_nodup
  rw [← map_index_liveIds] at h
  exact List.Nodup.of_map _ h

/-- A live node's handle resolves to it. -/
theorem node_of_live (h : (id, n) ∈ a.liveNodes) : a.node id = .ok n := by
  obtain ⟨_, g, hs, hid⟩ := mem_liveNodes.mp h
  have hg : g = id.generation := by rw [hid]; rfl
  simp [node, hs, hg]

theorem index_lt_of_node (h : a.node id = .ok n) : id.index < a.slots.length := by
  by_contra hlt
  simp [node, List.getElem?_eq_none (Nat.le_of_not_lt hlt)] at h

/-- A live node is determined by its slot. -/
theorem live_unique (h : (id, n) ∈ a.liveNodes) (h' : (id', n') ∈ a.liveNodes)
    (hi : id.index = id'.index) : id = id' ∧ n = n' := by
  obtain ⟨_, g, hs, hid⟩ := mem_liveNodes.mp h
  obtain ⟨_, g', hs', hid'⟩ := mem_liveNodes.mp h'
  rw [hi, hs', Option.some.injEq, NodeSlot.mk.injEq] at hs
  obtain ⟨rfl, rfl⟩ := hs
  exact ⟨by rw [hid, hid', hi], rfl⟩

theorem exists_live (h : i ∈ a.liveSlots) :
    ∃ id n, (id, n) ∈ a.liveNodes ∧ id.index = i := by
  rw [← map_index_liveNodes] at h
  obtain ⟨⟨id, n⟩, hm, rfl⟩ := List.mem_map.mp h
  exact ⟨id, n, hm, rfl⟩

theorem index_mem_liveSlots (h : (id, n) ∈ a.liveNodes) :
    id.index ∈ a.liveSlots := by
  rw [← map_index_liveNodes]
  exact List.mem_map.mpr ⟨(id, n), h, rfl⟩

end IrArena

end Sxla
