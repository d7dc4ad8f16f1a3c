import Sxla.Egraph.Extract
import Sxla.Egraph.Lift
import Sxla.Graph.Dce
import Sxla.Ir.Snapshot

/-!
# Applying an extraction

Each lifted node is compared with the e-node that extraction has chosen for
its class: a constant is written in place, a direct operand takes over the
node's uses, and anything else is left alone. A sweep of dead nodes closes
the application.
-/

namespace Sxla

open EGraph (need)

structure ApplyOutcome where
  arena : IrArena
  foldsApplied : Nat
  identitiesApplied : Nat
  nodesRemovedByDce : Nat
  extractionCost : Nat
  rewritesApplied : Nat

namespace Apply

/-- The arena and the graph of the loop, with what has been applied. -/
structure State where
  arena : IrArena
  graph : LiftedGraph
  folds : Nat
  identities : Nat

/-- The type of a constant, none for other ops. -/
def constType : Op → Option Ty
  | .constI64 _ => some (.scalar .i64)
  | .constF64 _ => some (.scalar .f64)
  | _ => none

/-- None where nothing is folded. -/
def foldInPlace (a : IrArena) (x : NodeId) (constOp : Op) : Option IrArena :=
  match a.node x with
  | .error _ => none
  | .ok n =>
    match n.op with
    | .binary _ =>
      match constType constOp with
      | none => none
      | some ty =>
        if n.ty ≠ ty then none
        else some (a.rewrite x fun n => { n with op := constOp, ty, inputs := [] })
    | _ => none

def replaceValueUses (a : IrArena) (source target : ValueId) : IrArena :=
  a.liveIds.foldl (fun a id => a.rewrite id (Node.replaceUses source target)) a

/-- None where `y` may not stand for `x`. -/
def rewriteUsesIfDirectInput (a : IrArena) (x y : NodeId) : Option IrArena :=
  match a.node x, a.node y with
  | .ok xn, .ok yn =>
    if !yn.op.isPure || xn.ty ≠ yn.ty then none
    else if xn.valueInputs.any fun v => v.node = y then
      some (replaceValueUses a (.fromNode x 0) (.fromNode y 0))
    else none
  | _, _ => none

def isConst : Op → Bool
  | .constI64 _ | .constF64 _ => true
  | _ => false

/-- The choice of a class. -/
def choiceOf (choices : List (Nat × Nat × Nat)) (cls : Nat) : Option Nat :=
  (choices.find? fun c => c.1 == cls).map (·.2.1)

namespace State

def fold (s : State) (x : NodeId) (constOp : Op) : State :=
  match foldInPlace s.arena x constOp with
  | some arena => { s with arena, folds := s.folds + 1 }
  | none => s

def identity (s : State) (x y : NodeId) : State :=
  match rewriteUsesIfDirectInput s.arena x y with
  | some arena => { s with arena, identities := s.identities + 1 }
  | none => s

/-- What is done for the chosen e-node: a constant that stands for another
node is written like one that a rule has made. -/
def take (s : State) (x : NodeId) (chosen : ENode) : Option NodeId → State
  | some y =>
    if y ≠ x then
      if isConst chosen.op then s.fold x chosen.op else s.identity x y
    else s
  | none => s.fold x chosen.op

end State

/-- One record of the loop. -/
def visit (choices : List (Nat × Nat × Nat)) (s : State) (r : LiftRecord) :
    Except EgraphError State := do
  let (own, graph) ← s.graph.own r
  let s := { s with graph }
  match choiceOf choices own with
  | none => return s
  | some chosen =>
    let node ← need graph.g.nodes[chosen]?
    return s.take r.node node graph.xirOf[node.seq]?.join

end Apply

open Apply

/-- Nothing where the extraction's total overflows: the source panics there. -/
def apply (a : IrArena) (roots : List NodeId) (budget : Nat) :
    Except EgraphError (Option ApplyOutcome) := do
  let lg ← lift a budget
  let (_, lg) ← lg.runRounds
  match ← lg.g.extract with
  | none => return none
  | some extraction =>
    let order := lg.recs.insertionSort fun r r' => r.node.index ≤ r'.node.index
    let s ← order.foldlM (visit extraction.choices) ⟨a, lg, 0, 0⟩
    let (arena, removed) ← (Dce.run s.arena roots).mapError fun _ => .dce
    return some {
      arena
      foldsApplied := s.folds
      identitiesApplied := s.identities
      nodesRemovedByDce := removed
      extractionCost := extraction.totalCost
      rewritesApplied := s.folds + s.identities }

end Sxla
