import Sxla.Anvil.Partition
import Sxla.Egraph.UnionFind
import Sxla.Fusion.Cost
import Sxla.Fusion.Legality
import Sxla.Levels.Level2
import Sxla.Library.Transition

/-!
# The fusion search

Three universes group the nodes by policies of their own. Their costs are
scored by the jobs of a parallel region, which share the best cost so far;
the winner is then grouped once more and built as a cluster set.

A job takes one access of the shared counters at a time, in any interleaving
with the others. Its weak exchange may fail for no reason.
-/

namespace Sxla

namespace Fusion

open Saturating Forest Transition

inductive FusionError where
  | gearStartFailed
  | clusterBroken (e : ClusterError)
deriving DecidableEq, Repr

inductive Universe where
  | a
  | b
  | c
deriving DecidableEq, Repr

namespace Universe

def priority : Universe → Nat
  | .a => 0
  | .b => 1
  | .c => 2

def clusterCap : Universe → Nat
  | .a | .b => 0xffffffffffffffff
  | .c => 4

def excludeReductions : Universe → Bool
  | .b => true
  | .a | .c => false

end Universe

/-- `strategy` is the source's `universe`, a word of Lean's own. -/
structure UniverseResult where
  clusters : ClusterSet
  edges : List (UInt32 × UInt32)
  cost : Nat
  strategy : Universe
  evaluated : Nat
deriving DecidableEq, Repr

structure SearchOutcome where
  clusters : ClusterSet
  edges : List (UInt32 × UInt32)
  bestCost : Nat
  strategy : Universe
  evaluated : Nat
  pruned : Nat
deriving DecidableEq, Repr

/-- `AtomicU32::fetch_add`. -/
def fetchAdd (counter n : Nat) : Nat := (counter + n) % 0x100000000

-- ---------------------------------------------------------------------------
-- Grouping
-- ---------------------------------------------------------------------------

def candidates (a : IrArena) : List (NodeId × NodeId) :=
  (uses a).filter fun (producer, consumer) => fusible a producer consumer

def evaluated (a : IrArena) : Nat := (candidates a).length % 0x100000000

/-- One loop climbs to the root, the other points all on the way at it. -/
def findRoot (parent : List Nat) (x : Nat) : Nat × List Nat :=
  (root parent x, UnionFind.compress (root parent x) x parent x)

/-- The parent and the cluster size of each slot. -/
structure Groups where
  parent : List Nat
  sizes : List Nat
deriving DecidableEq, Repr

def Groups.singletons (n : Nat) : Groups := ⟨List.range n, List.replicate n 1⟩

def skips (a : IrArena) (u : Universe) (consumer : NodeId) : Bool :=
  u.excludeReductions &&
    match a.node consumer with
    | .ok n => isReduce n.op
    | .error _ => false

/-- The lower root wins. -/
def join (a : IrArena) (u : Universe) (g : Groups) (pair : NodeId × NodeId) : Groups :=
  if skips a u pair.2 then g
  else
    let (rp, parent) := findRoot g.parent pair.1.index
    let (rc, parent) := findRoot parent pair.2.index
    if rp = rc then { g with parent }
    else
      let merged := g.sizes.getD rp 0 + g.sizes.getD rc 0
      if merged > u.clusterCap then { g with parent }
      else
        { parent := parent.set (max rp rc) (min rp rc)
          sizes := (g.sizes.set (min rp rc) merged).set (max rp rc) 0 }

/-- Joins the group of the root, or opens one behind the others. -/
def insertGroup (root : Nat) (id : NodeId) : List (Nat × List NodeId) → List (Nat × List NodeId)
  | [] => [(root, [id])]
  | (r, members) :: groups =>
    if r = root then (r, members ++ [id]) :: groups
    else (r, members) :: insertGroup root id groups

def groupLive (live : List NodeId) (parent : List Nat) : List Nat × List (Nat × List NodeId) :=
  live.foldl (fun (parent, groups) id =>
    let (root, parent) := findRoot parent id.index
    (parent, insertGroup root id groups)) (parent, [])

/-- A member that repair splits off becomes a root of its own. -/
def splitGroup (a : IrArena) (state : List Nat × Bool) (group : Nat × List NodeId) :
    List Nat × Bool :=
  match repairCluster a group.2 (resourceEstimate a group.2) with
  | some (.splitCluster node) =>
    if node.index < state.1.length then (state.1.set node.index node.index, true) else state
  | _ => state

def repairRounds (a : IrArena) (live : List NodeId) : Nat → List Nat → List Nat
  | 0, parent => parent
  | rounds + 1, parent =>
    let (parent, groups) := groupLive live parent
    let (parent, changed) := groups.foldl (splitGroup a) (parent, false)
    if changed then repairRounds a live rounds parent else parent

/-- The parents after grouping and repair, which `score_universe` and
`build_universe` do alike; a pruned branch has no candidates. -/
def grouping (a : IrArena) (u : Universe) (pruned : Bool) : List Nat :=
  let pairs := if pruned then [] else candidates a
  let groups := pairs.foldl (join a u) (.singletons a.slotCount)
  repairRounds a a.liveIds a.liveIds.length groups.parent

-- ---------------------------------------------------------------------------
-- Scoring and building
-- ---------------------------------------------------------------------------

def scorePrunes (currentBest : Nat) : Bool := currentBest = 0

def buildPrunes (currentBest : Nat) : Bool := currentBest ≤ 0 && currentBest ≠ u64Max

/-- The parent entry itself, with no climb to the root. -/
def groupOf (parent : List Nat) (id : NodeId) : Option Nat := parent[id.index]?

def scoreUniverse (a : IrArena) (u : Universe) (pruned : Bool) : Option Nat :=
  (externalEdgeBytes a (groupOf (grouping a u pruned))).map fun bytes =>
    add bytes (arithmetic a)

/-- `rootCluster` has the cluster of each root that a node has reached. -/
structure Building where
  parent : List Nat
  clusters : ClusterSet
  rootCluster : List (Option UInt32)
deriving DecidableEq, Repr

def place (a : IrArena) (b : Building) (id : NodeId) : Except (Halt FusionError) Building :=
  let (root, parent) := findRoot b.parent id.index
  let (cluster, clusters, rootCluster) :=
    match (b.rootCluster[root]?).join with
    | some c => (c, b.clusters, b.rootCluster)
    | none =>
      let est := resourceEstimate a [id]
      let (c, clusters) := b.clusters.addCluster (.ofNat est.sharedBytes) (.ofNat est.registerUnits)
      (c, clusters, b.rootCluster.set root (some c))
  match clusters.assign cluster id with
  | .ok clusters => .ok { parent, clusters, rootCluster }
  | .error e => .error (.error (.clusterBroken e))

def materialize (a : IrArena) (parent : List Nat) : Except (Halt FusionError) ClusterSet :=
  (a.liveIds.foldlM (place a) ⟨parent, .new a, List.replicate a.slotCount none⟩).map (·.clusters)

/-- `map_err(|_| GearStartFailed)`. -/
def scoreFailed : Halt CostError → Halt FusionError
  | .error _ => .error .gearStartFailed
  | .panic => .panic

def buildUniverse (a : IrArena) (u : Universe) (currentBest : Nat) :
    Except (Halt FusionError) UniverseResult := do
  let clusters ← materialize a (grouping a u (buildPrunes currentBest))
  let bytes ← orPanic (externalEdgeBytes a clusters.clusterOf)
  let total ← orPanic (checkedAdd bytes (arithmetic a))
  let report ← (score .tier1 a [] total).mapError scoreFailed
  return ⟨clusters, clusters.deriveEdges a, report.cost, u, evaluated a⟩

-- ---------------------------------------------------------------------------
-- The region
-- ---------------------------------------------------------------------------

def universeCodes : List Universe := [.a, .b, .c]

/-- Where a worker is with the job at the head of its list. -/
inductive JobPhase where
  /-- `score_universe` loads the best cost. -/
  | load
  | prune
  | evaluate (pruned : Bool)
  /-- The job loads the best cost to compare its own with. -/
  | compare (cost : Nat)
  | exchange (cost cur : Nat)
  | store (cost : Nat)
deriving DecidableEq, Repr

/-- Each job is a place in `costs` and a universe. -/
structure Scorer where
  jobs : List (Nat × Universe)
  phase : JobPhase
deriving DecidableEq, Repr

structure Scoring where
  bestCost : Nat
  pruned : Nat
  evaluated : Nat
  workers : List Scorer
  costs : List Nat
deriving DecidableEq, Repr

namespace Scoring

def start (plan : List (List (Nat × Universe))) : Scoring :=
  { bestCost := u64Max
    pruned := 0
    evaluated := 0
    workers := plan.map fun jobs => ⟨jobs, .load⟩
    costs := List.replicate 3 u64Max }

def move (s : Scoring) (w : Nat) (worker : Scorer) (phase : JobPhase) : Scoring :=
  { s with workers := s.workers.set w { worker with phase } }

/-- A worker's next access; an exchange fails without a reason where
`spurious` says so. A job that panics takes no step. -/
def step (a : IrArena) (s : Scoring) : Nat × Bool → Option Scoring
  | (w, spurious) => do
    let worker ← s.workers[w]?
    match worker.jobs with
    | [] => none
    | (slot, u) :: jobs =>
      match worker.phase with
      | .load => some (s.move w worker (if scorePrunes s.bestCost then .prune else .evaluate false))
      | .prune => some { s.move w worker (.evaluate true) with pruned := fetchAdd s.pruned 1 }
      | .evaluate pruned =>
        let cost ← scoreUniverse a u pruned
        some { s.move w worker (.compare cost) with
          evaluated := fetchAdd s.evaluated (Fusion.evaluated a) }
      | .compare cost => some (s.move w worker (.exchange cost s.bestCost))
      | .exchange cost cur =>
        if cost < cur then
          if s.bestCost = cur ∧ spurious = false then
            some { s.move w worker (.store cost) with bestCost := cost }
          else some (s.move w worker (.exchange cost s.bestCost))
        else some (s.move w worker (.store cost))
      | .store cost =>
        some { s with
          workers := s.workers.set w ⟨jobs, .load⟩
          costs := s.costs.set slot cost }

def Done (s : Scoring) : Prop := ∀ worker ∈ s.workers, worker.jobs = []

/-- Some worker's job cannot be scored. -/
def Panics (a : IrArena) (s : Scoring) : Prop :=
  ∃ worker ∈ s.workers, ∃ slot u jobs pruned, worker.jobs = (slot, u) :: jobs ∧
    worker.phase = .evaluate pruned ∧ scoreUniverse a u pruned = none

end Scoring

-- ---------------------------------------------------------------------------
-- The search
-- ---------------------------------------------------------------------------

/-- Which worker of the region gets which places of `costs`, in its order. -/
def plan (inPooledRegion : Bool) (globalPool : Pool) (workers : Nat) :
    Except Fault (List (List (Nat × Universe))) :=
  let codes : Slice Universe := ⟨universeCodes, by decide⟩
  runPartitioned inPooledRegion globalPool (fun u => u) codes codes (max workers 1)

/-- The sequential loop behind a region that did not start. Nothing has been
stored to the best cost. -/
def fallback (a : IrArena) : Option Scoring := do
  let costs ← universeCodes.mapM fun u => scoreUniverse a u (scorePrunes u64Max)
  let evaluated := universeCodes.foldl (fun sum _ => fetchAdd sum (evaluated a)) 0
  return ⟨u64Max, 0, evaluated, [], costs⟩

/-- By cost, then by priority. -/
def beats (x y : Nat × Universe) : Bool :=
  x.1 < y.1 || (x.1 = y.1 && x.2.priority < y.2.priority)

def winner : List (Nat × Universe) → Option (Nat × Universe)
  | [] => none
  | first :: rest => some (rest.foldl (fun best r => if beats r best then r else best) first)

/-- The winner is built again. It is the one result that `search` then picks
from. -/
def finish (a : IrArena) (s : Scoring) : Except (Halt FusionError) SearchOutcome :=
  match winner (s.costs.zip universeCodes) with
  | none => .error (.error .gearStartFailed)
  | some (cost, u) => do
    let result ← buildUniverse a u s.bestCost
    return {
      clusters := result.clusters
      edges := result.edges
      bestCost := cost
      strategy := u
      evaluated := s.evaluated
      pruned := if buildPrunes s.bestCost then fetchAdd s.pruned 1 else s.pruned }

/-- What `search` may return. A job's panic reaches the caller on both paths:
a scoped region passes it on, and behind a pooled one the sequential loop
scores the same universe again. -/
inductive Returns (a : IrArena) (inPooledRegion : Bool) (globalPool : Pool) (workers : Nat) :
    Except (Halt FusionError) SearchOutcome → Prop
  | region {lists : List (List (Nat × Universe))} {s : Scoring}
      (hplan : plan inPooledRegion globalPool workers = .ok lists)
      (h : Reachable (Scoring.step a) (fun _ _ => True) (.start lists) s) (hdone : s.Done) :
      Returns a inPooledRegion globalPool workers (finish a s)
  | panicked {lists : List (List (Nat × Universe))} {s : Scoring}
      (hplan : plan inPooledRegion globalPool workers = .ok lists)
      (h : Reachable (Scoring.step a) (fun _ _ => True) (.start lists) s) (hpanics : s.Panics a) :
      Returns a inPooledRegion globalPool workers (.error .panic)
  | declined {e : ExecError} {s : Scoring}
      (hplan : plan inPooledRegion globalPool workers = .error (.error e))
      (hs : fallback a = some s) : Returns a inPooledRegion globalPool workers (finish a s)
  | declinedPanicked {e : ExecError}
      (hplan : plan inPooledRegion globalPool workers = .error (.error e))
      (hs : fallback a = none) : Returns a inPooledRegion globalPool workers (.error .panic)

end Fusion

end Sxla
