import Sxla.Egraph.Membership
import Sxla.Library.Saturating

/-!
# Extraction

The cheapest node of every class. Rounds relax all nodes against the costs of
the classes, then recompute the classes from their members, until no node got
cheaper or there were as many rounds as nodes and one more.

Costs are `u32` in the source: the sums of a round saturate there, the total
at the end is a checked one.
-/

namespace Sxla

open Saturating

namespace EGraph

def fusionLocalityPenalty : Nat := 64

def baseCost : Op → Nat
  | .constI64 _ | .constF64 _ | .param _ => 1
  | .binary _ | .unary _ => 2
  | .dot => 8
  | .reduce .. => 4
  | .transpose .. | .broadcast _ => fusionLocalityPenalty
  | .matmul .. => 16
  | .conv .. => 24
  | .rng .. => 4
  | .ifOp => 8
  | .custom _ => 32
  | .fusionCluster | .fusionBarrier | .fusionMaterialize => 1
  | .loopParallel _ | .loopAlloc .. | .loopAsyncCopy => 1
  | .loopPipelineStage _ => 1
  | .targetMma => 12
  | .targetWarpShuffle | .targetBarrier => 2

/-- Per class the chosen node and its cost, and the cost of all of them. -/
structure Extraction where
  choices : List (Nat × Nat × Nat)
  totalCost : Nat
deriving DecidableEq, Repr

/-- The costs found so far for `n` nodes and their classes. -/
structure Bests (n : Nat) where
  bestCost : Vector Nat n
  bestNode : Vector (Option (Fin n)) n
  classBest : Vector (Option (Nat × Fin n)) (max n 1)

def classIds (g : EGraph) : List Nat := g.classes.keys

namespace Bests

variable {n : Nat}

def start (n : Nat) : Bests n := ⟨.replicate n u32Max, .replicate n none, .replicate _ none⟩

def costOf (b : Bests n) (c : Nat) : Option Nat := b.classBest[c]?.join.map (·.1)

/-- Nothing where a child has no cost yet. -/
def nodeCost (b : Bests n) (node : ENode) : Option Nat :=
  node.children.foldlM (fun cost c => (b.costOf c).map (addUpTo u32Max cost)) (baseCost node.op)

/-- One node of a round, and whether any node got cheaper so far. -/
def relax (g : EGraph) (s : Bests n × Bool) (id : Fin n) : Except EgraphError (Bests n × Bool) := do
  let (b, changed) := s
  let node ← need g.nodes[id.val]?
  match b.nodeCost node with
  | none => return (b, changed)
  | some cost =>
    if cost < b.bestCost[id] then
      return ({ b with
        bestCost := b.bestCost.set id cost
        bestNode := b.bestNode.set id (some id) }, true)
    else
      return (b, changed)

/-- Lower costs win, then lower ids. -/
def better (b : Bests n) (cbest : Option (Nat × Fin n)) (m : Nat) : Option (Nat × Fin n) :=
  match b.bestNode[m]?.join with
  | none => cbest
  | some chosen =>
    let c := b.bestCost[chosen]
    match cbest with
    | none => some (c, chosen)
    | some (bc, bn) => if c < bc ∨ c = bc ∧ chosen < bn then some (c, chosen) else some (bc, bn)

/-- A class from its members. -/
def update (g : EGraph) (b : Bests n) (cls : Nat) : Except EgraphError (Bests n) := do
  let members ← need g.classes[cls]?
  let cbest := members.foldl b.better none
  if h : cls < max n 1 then return { b with classBest := b.classBest.set cls cbest h }
  else return b

def round (g : EGraph) (b : Bests n) : Except EgraphError (Bests n × Bool) := do
  let (b, changed) ← (List.finRange n).foldlM (relax g) (b, false)
  let b ← g.classIds.foldlM (update g) b
  return (b, changed)

/-- Rounds up to the first that changes no node. -/
def rounds (g : EGraph) : Nat → Bests n → Except EgraphError (Bests n)
  | 0, b => .ok b
  | fuel + 1, b => do
    let (b, changed) ← b.round g
    if changed then rounds g fuel b else return b

def choices (g : EGraph) (b : Bests n) : List (Nat × Nat × Nat) :=
  g.classIds.filterMap fun cls => b.classBest[cls]?.join.map fun (c, node) => (cls, node.val, c)

end Bests

/-- Nothing where the sum of the costs overflows: the source panics there. -/
def total (choices : List (Nat × Nat × Nat)) : Option Nat :=
  (choices.map fun (_, _, c) => c).foldlM (checkedAddUpTo u32Max) 0

def extract (g : EGraph) : Except EgraphError (Option Extraction) := do
  let b ← Bests.rounds g (g.nodes.length + 1) (.start g.nodes.length)
  let choices := b.choices g
  return (total choices).map fun totalCost => ⟨choices, totalCost⟩

end EGraph

end Sxla
