import Sxla.Ir.Arena
import Sxla.Library.Saturating
import Sxla.Fusion.Repair

/-!
# The fusion cost model

The bytes of the edges that cross clusters, and arithmetic units for the
nodes. The sums are of plain `u64`s, so an overflow panics.
-/

namespace Sxla

namespace Fusion

open Saturating

inductive Tier where
  | tier1
  | tier2
  | tier3
deriving DecidableEq, Repr

inductive CostError where
  | tier3Unavailable
  | tier2Fallback
deriving DecidableEq, Repr

structure ScoreReport where
  cost : Nat
  effectiveTier : Tier
deriving DecidableEq, Repr

/-- How a call ends without a value. -/
inductive Halt (ε : Type) where
  | error (e : ε)
  | panic
deriving DecidableEq, Repr

def opArithmetic : Op → Nat
  | .constI64 _ | .constF64 _ | .param _ => 1
  | .binary _ | .unary _ => 2
  | .dot => 64
  | .reduce .. => 8
  | .matmul .. => 128
  | .conv .. => 256
  | .transpose .. | .broadcast _ => 16
  | .rng .. => 8
  | .ifOp => 16
  | .custom _ => 64
  | .fusionCluster | .fusionBarrier | .fusionMaterialize => 1
  | .loopParallel _ | .loopAlloc .. | .loopAsyncCopy => 1
  | .loopPipelineStage _ => 1
  | .targetMma => 96
  | .targetWarpShuffle | .targetBarrier => 4

/-- A value that panics where there is none. -/
def orPanic (value : Option α) : Except (Halt ε) α :=
  match value with
  | some x => .ok x
  | none => .error .panic

/-- `CostModel { tier }.score(..)`. The second tier falls back on the first. -/
def score (tier : Tier) (a : IrArena) (members : List NodeId) (externalEdgeBytes : Nat) :
    Except (Halt CostError) ScoreReport := do
  if tier = .tier3 then throw (.error .tier3Unavailable)
  let nodes := members.filterMap fun m => (a.node m).toOption
  let registerUnits := nodes.foldl (fun units _ => saturatingAdd units 8) 0
  let excess := registerUnits - REGISTER_BUDGET_UNITS
  let cost ← orPanic ((nodes.map fun n => opArithmetic n.op).foldlM checkedAdd externalEdgeBytes)
  let cost ← orPanic (checkedAdd cost (excess * 8))
  return ⟨cost, .tier1⟩

-- ---------------------------------------------------------------------------
-- External edges
-- ---------------------------------------------------------------------------

/-- The producer and the consumer of each value use, in the order of the
loops over live nodes and their inputs. -/
def uses (a : IrArena) : List (NodeId × NodeId) :=
  a.liveNodes.flatMap fun (id, n) => n.valueInputs.map fun v => (v.node, id)

def crosses {κ : Type} [DecidableEq κ] (clusterOf : NodeId → Option κ) (edge : NodeId × NodeId) :
    Bool :=
  match clusterOf edge.1, clusterOf edge.2 with
  | some p, some c => p ≠ c
  | _, _ => true

/-- The producer's result; nothing for a handle that does not resolve. -/
def edgeBytes (a : IrArena) (edge : NodeId × NodeId) : Nat :=
  match a.node edge.1 with
  | .ok n => n.ty.byteSize
  | .error _ => 0

def externalEdgeBytes {κ : Type} [DecidableEq κ] (a : IrArena) (clusterOf : NodeId → Option κ) :
    Option Nat :=
  checkedSum (((uses a).filter (crosses clusterOf)).map (edgeBytes a))

/-- The arithmetic of all live nodes, at most 256 for each. -/
def arithmetic (a : IrArena) : Nat := (a.liveNodes.map fun n => opArithmetic n.2.op).sum

end Fusion

end Sxla
