import Sxla.Ir.Live

/-!
# Edit logs

The edits that a pass may ask for, applied in order to a clone of the arena
and committed only when all of them apply and the verifier accepts the
result.
-/

namespace Sxla

inductive CommitError where
  | verifierFailed
  | arenaExhausted
  | unknownTarget
deriving DecidableEq, Repr

inductive Edit where
  | replaceAllUses (source target : ValueId)
  | removeNode (node : NodeId)
  | setOp (node : NodeId) (op : Op)
  | setEffectIn (node : NodeId) (effect : ValueId)
deriving DecidableEq, Repr

namespace Node

/-- The source also rewrites the unused places of its input array, which
nothing reads. -/
def replaceUses (source target : ValueId) (n : Node) : Node :=
  { n with
    inputs := n.inputs.map fun v => if v = source then target else v
    effectIn := if n.effectIn = source then target else n.effectIn }

end Node

def applyEdit (a : IrArena) : Edit → Except CommitError IrArena
  | .replaceAllUses source target =>
    .ok (a.liveIds.foldl (fun a id => a.rewrite id (Node.replaceUses source target)) a)
  | .removeNode node =>
    match a.removeNode node with
    | .ok b => .ok b
    | .error .unknownNode => .error .unknownTarget
    | .error _ => .error .arenaExhausted
  | .setOp node op => (a.modifyNode node fun n => { n with op }).mapError fun _ => .unknownTarget
  | .setEffectIn node effect =>
    (a.modifyNode node fun n => { n with effectIn := effect }).mapError fun _ => .unknownTarget

def commit (a : IrArena) (log : List Edit) (verify : IrArena → Bool) :
    Except CommitError IrArena := do
  let b ← log.foldlM applyEdit a
  if verify b then return b else throw .verifierFailed

end Sxla
