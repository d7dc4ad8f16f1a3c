import Sxla.Levels.Level2
import Sxla.Supertensor.Extraction
import Sxla.Supertensor.Search

/-!
# The gate and the bridge

The best points of the frontier are checked again in full, and the first one
that passes becomes a cluster set and the hints of its placements.
-/

namespace Sxla

inductive SuperOptError where
  | noTensorOps
  | noVerifiedCandidate
  | constraintViolation (v : ConstraintViolation)
deriving DecidableEq, Repr

structure TopCandidate where
  sched : List PackedOpSched
  cost : CostPoint
deriving DecidableEq, Repr

structure TileHint where
  op : NodeId
  tile : Tile
  memLevel : Nat
  vecWidth : Nat
deriving DecidableEq, Repr

/-- The source keeps the edges in the cluster set. -/
structure SuperOutcome where
  clusters : ClusterSet
  edges : List (UInt32 × UInt32)
  bestCost : CostPoint
  evaluated : Nat
  pruned : Nat
  tileHints : List TileHint
deriving DecidableEq, Repr

-- ---------------------------------------------------------------------------
-- The gate
-- ---------------------------------------------------------------------------

/-- The fusion is put to the legality check once more. -/
def verifyFuse (a : IrArena) (s : PackedOpSched) (i : Nat) : Except SuperOptError Unit := do
  unless !s.fused || fusible a s.opId s.fuseTarget do
    throw (.constraintViolation (.fuseIllegal (.ofNat i)))

def verifyCandidate (a : IrArena) (poly : SchedulePolytope) (sched : List PackedOpSched) :
    Except SuperOptError Unit := do
  (poly.checkFull sched).mapError .constraintViolation
  sched.zipIdx.forM fun (s, i) => verifyFuse a s i
  unless sched.length = poly.opCount do
    throw (.constraintViolation (.unknownOp (.ofNat sched.length)))

/-- The first of ten that verifies. -/
def verifyCandidates (a : IrArena) (poly : SchedulePolytope) (candidates : List TopCandidate) :
    Option TopCandidate :=
  (candidates.take 10).find? fun cand => (verifyCandidate a poly cand.sched).toBool

-- ---------------------------------------------------------------------------
-- The bridge
-- ---------------------------------------------------------------------------

namespace Bridge

/-- Union-find over node slots, with path halving. A parent is never above
its slot, so `x + 1` rounds reach the root. -/
def findFrom : Nat → List Nat → Nat → List Nat × Nat
  | 0, parent, x => (parent, x)
  | fuel + 1, parent, x =>
    let p := parent.getD x x
    if p = x then (parent, x)
    else
      let grand := parent.getD p p
      findFrom fuel (parent.set x grand) grand

def find (parent : List Nat) (x : Nat) : List Nat × Nat := findFrom (x + 1) parent x

def fusedPairs (winner : List PackedOpSched) : List (NodeId × NodeId) :=
  (winner.filter (·.fused)).map fun s => (s.opId, s.fuseTarget)

/-- The greater root goes below the lesser. -/
def link (parent : List Nat) (pair : NodeId × NodeId) : List Nat :=
  let (parent, rp) := find parent pair.1.index
  let (parent, rc) := find parent pair.2.index
  if rp ≠ rc then parent.set (max rc rp) (min rp rc) else parent

/-- Joins the group of the root, or opens one behind the others. -/
def addMember (root : Nat) (id : NodeId) : List (Nat × List NodeId) → List (Nat × List NodeId)
  | [] => [(root, [id])]
  | (r, members) :: groups =>
    if r = root then (r, members ++ [id]) :: groups
    else (r, members) :: addMember root id groups

/-- Joins the group of the root if there is one and it is not in it yet. -/
def attach (root : Nat) (id : NodeId) : List (Nat × List NodeId) → List (Nat × List NodeId)
  | [] => []
  | (r, members) :: groups =>
    if r = root then
      (r, if members.contains id then members else members ++ [id]) :: groups
    else
      (r, members) :: attach root id groups

def groups (a : IrArena) (poly : SchedulePolytope) (winner : List PackedOpSched) :
    List (Nat × List NodeId) :=
  let linked := (fusedPairs winner).foldl link (List.range a.slotCount)
  let grouped := poly.opBounds.foldl (fun (parent, groups) b =>
    let (parent, root) := find parent b.opId.index
    (parent, addMember root b.opId groups)) (linked, [])
  let attached := (fusedPairs winner).foldl (fun (parent, groups) pair =>
    let (parent, root) := find parent pair.1.index
    (parent, attach root pair.2 groups)) grouped
  attached.2

/-- The bytes of a member's tensor. -/
def memberBytes (a : IrArena) (id : NodeId) : Nat :=
  match a.node id with
  | .ok n => (n.ty.asTensor.map Wpa.tensorBytes).getD 0
  | .error _ => 0

def assignAll (clusters : ClusterSet) (idx : UInt32) (members : List NodeId) :
    Except SuperOptError ClusterSet :=
  members.foldlM (fun clusters m => (clusters.assign idx m).mapError fun _ =>
    .constraintViolation (.unknownOp idx.toUInt16)) clusters

/-- Groups of one stay outside the clusters. -/
def addGroup (a : IrArena) (hw : HardwareModel) (clusters : ClusterSet)
    (group : Nat × List NodeId) : Except SuperOptError ClusterSet :=
  if group.2.length < 2 then .ok clusters
  else
    let shared := min (Saturating.sum (group.2.map (memberBytes a))) hw.sramCapBytes
    let (idx, clusters) := clusters.addCluster (.ofNat shared) 1024
    assignAll clusters idx group.2

def deriveEdges (a : IrArena) (clusters : ClusterSet) : List (UInt32 × UInt32) :=
  clusters.deriveEdges a

def buildClusters (a : IrArena) (poly : SchedulePolytope) (winner : List PackedOpSched)
    (hw : HardwareModel) : Except SuperOptError ClusterSet :=
  (groups a poly winner).foldlM (addGroup a hw) (.new a)

def tileHints (winner : List PackedOpSched) : List TileHint :=
  winner.map fun s => ⟨s.opId, s.tile, s.memLevel, s.vecWidth⟩

end Bridge

-- ---------------------------------------------------------------------------
-- The pipeline
-- ---------------------------------------------------------------------------

/-- `outcome` is what the search of the arena's polytope returned. -/
def superoptimizeArena (a : IrArena) (outcome : SearchOutcome) :
    Except SuperOptError SuperOutcome :=
  let poly := truncatePolytope (extractPolytope a .reference)
  if poly.opCount = 0 then .error .noTensorOps
  else if outcome.frontier.isEmpty then .error .noVerifiedCandidate
  else
    match verifyCandidates a poly ((outcome.frontier.topK 10).map fun p => ⟨p.sched, p.cost⟩) with
    | none => .error .noVerifiedCandidate
    | some winner =>
      (Bridge.buildClusters a poly winner.sched .reference).map fun clusters =>
        { clusters
          edges := Bridge.deriveEdges a clusters
          bestCost := winner.cost
          evaluated := outcome.evaluated
          pruned := outcome.pruned
          tileHints := Bridge.tileHints winner.sched }

end Sxla
