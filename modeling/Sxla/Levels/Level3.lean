import Sxla.Graph.Schedule
import Sxla.Levels.Level2

/-!
# The loop program

`projectWithFusion` schedules the arena and hands out value slots: first to
the parameters, in the order they are emitted, then to every other node.
The slot table it ends with (`Projection.slotOf`) is kept, because the
binding of parameters and the slots a program reads are stated about it.
-/

namespace Sxla

inductive LowerError where
  | schedule (e : ScheduleError)
  | unknownNode
  | arity
deriving DecidableEq, Repr

structure ScheduledOp where
  op : Op
  /-- The used part of the source's array. -/
  inputs : List Nat
  output : Nat
  ty : Ty
  cluster : Option UInt32
deriving DecidableEq, Repr

structure Buffer where
  slot : Nat
  bytes : Nat
  space : AddressSpace
deriving DecidableEq, Repr

structure LoopProgram where
  params : List Ty
  ops : List ScheduledOp
  results : List Nat
  buffers : List Buffer
deriving DecidableEq, Repr

/-- The running state of the projection. -/
structure Projection where
  slotOf : List (Option Nat)
  nextSlot : Nat
  params : List Ty
  /-- Each op with the node it comes from. -/
  ops : List (NodeId × ScheduledOp)
deriving Repr

namespace Projection

def start (a : IrArena) : Projection := ⟨List.replicate a.slotCount none, 0, [], []⟩

def lookup (s : Projection) (id : NodeId) : Except LowerError Nat :=
  match (s.slotOf[id.index]?).join with
  | some slot => .ok slot
  | none => .error .unknownNode

def nodeOf (a : IrArena) (id : NodeId) : Except LowerError Node :=
  match a.node id with
  | .ok n => .ok n
  | .error _ => .error .unknownNode

def assignSlot (s : Projection) (id : NodeId) : Projection :=
  { s with
    slotOf := s.slotOf.set id.index (some s.nextSlot)
    nextSlot := s.nextSlot + 1 }

/-- `while params.len() <= idx { push(None) }`, then the write. -/
def setParam (params : List Ty) (idx : Nat) (ty : Ty) : List Ty :=
  (params ++ List.replicate (idx + 1 - params.length) Ty.none).set idx ty

/-- The body of the first loop. -/
def bindParam (a : IrArena) (s : Projection) (id : NodeId) : Except LowerError Projection := do
  let n ← nodeOf a id
  match n.op with
  | .param index =>
    return { s.assignSlot id with params := setParam s.params index.toNat n.ty }
  | _ => return s

/-- The body of the second loop. -/
def emitOp (a : IrArena) (cluster : NodeId → Option UInt32) (s : Projection) (id : NodeId) :
    Except LowerError Projection := do
  let n ← nodeOf a id
  match n.op with
  | .param _ => return s
  | op =>
    if n.nInputs > MAX_INPUTS then
      throw .arity
    let inputs ← n.valueInputs.mapM fun v => s.lookup v.node
    return { s.assignSlot id with
      ops := s.ops ++ [(id, ⟨op, inputs, s.nextSlot, n.ty, cluster id⟩)] }

end Projection

def bufferBytes (t : TensorType) : Nat :=
  let bytes := Shape.saturatingMul t.shape.numElements t.elem.byteSize
  if bytes < 2 ^ 32 then bytes else 2 ^ 32 - 1

/-- The nodes that use a value of each slot, in slot order. -/
def consumersOf (a : IrArena) (slot : Nat) : List NodeId :=
  a.liveNodes.flatMap fun (id, n) =>
    (n.valueInputs.filter (·.node.index == slot)).map fun _ => id

def bufferSpace (a : IrArena) (roots : List NodeId) (clusters : ClusterSet) (producer : NodeId) :
    AddressSpace :=
  match clusters.clusterOf producer with
  | none => .global
  | some pc =>
    if (clusters.cluster pc).any (·.materialize) then .global
    else if roots.contains producer then .global
    else
      let consumers := consumersOf a producer.index
      if consumers.isEmpty then .global
      else
        match a.node producer with
        | .error _ => .global
        | .ok p =>
          let inside := consumers.all fun c =>
            clusters.clusterOf c == some pc &&
              match a.node c with
              | .ok n => n.region == p.region
              | .error _ => false
          if inside then .register else .global

def planBuffer (a : IrArena) (roots : List NodeId) (clusters : ClusterSet) :
    NodeId × ScheduledOp → Option Buffer
  | (id, op) =>
    match op.ty with
    | .tensor t =>
      some ⟨op.output, bufferBytes t,
        if clusters.isEmpty then .global else bufferSpace a roots clusters id⟩
    | _ => none

/-- The order a projection follows. -/
def projectionOrder (a : IrArena) (clusters : ClusterSet) : Except ScheduleError (List NodeId) :=
  if clusters.isEmpty then schedule a else scheduleFused a clusters.clusterOf

/-- The two loops over the scheduled nodes. -/
def assignSlots (a : IrArena) (clusters : ClusterSet) : Except LowerError Projection := do
  let order ← match projectionOrder a clusters with
    | .ok order => .ok order
    | .error e => .error (.schedule e)
  let cluster := fun id => if clusters.isEmpty then none else clusters.clusterOf id
  let s ← order.foldlM (Projection.bindParam a) (.start a)
  order.foldlM (Projection.emitOp a cluster) s

def projectWithFusion (a : IrArena) (roots : List NodeId) (clusters : ClusterSet) :
    Except LowerError LoopProgram := do
  let s ← assignSlots a clusters
  let results ← roots.mapM s.lookup
  .ok
    { params := s.params
      ops := s.ops.map (·.2)
      results
      buffers := s.ops.filterMap (planBuffer a roots clusters) }

def project (a : IrArena) (roots : List NodeId) : Except LowerError LoopProgram :=
  projectWithFusion a roots .empty

/-- `params.len() as u32`, raised to one past every output. The addition
cannot wrap: handing out the slot after the last one would fail first. -/
def LoopProgram.valueCount (prog : LoopProgram) : Nat :=
  prog.ops.foldl (fun m op => max m (op.output + 1)) (prog.params.length % 2 ^ 32)

end Sxla
