import Sxla.Ir.Arena

/-!
# Resources and repair

What a group of nodes takes of the shared memory and the registers, and the
one step that brings a group over budget closer to it.
-/

namespace Sxla

/-- In a saturating `i64`; a shape has no negative dims. -/
def Ty.byteSize : Ty → Nat
  | .scalar s => s.byteSize
  | .tensor t | .memRef t _ => Shape.saturatingMul t.shape.numElements t.elem.byteSize
  | .token | .none => 0

namespace Fusion

def SHARED_MEM_BUDGET_BYTES : Nat := 64 * 1024

def REGISTER_BUDGET_UNITS : Nat := 256

-- ---------------------------------------------------------------------------
-- Resources
-- ---------------------------------------------------------------------------

structure ResourceEstimate where
  sharedBytes : Nat
  registerUnits : Nat
  occupancyHint : Nat
deriving DecidableEq, Repr

def ResourceEstimate.overBudget (e : ResourceEstimate) : Bool :=
  e.sharedBytes > SHARED_MEM_BUDGET_BYTES || e.registerUnits > REGISTER_BUDGET_UNITS

/-- `u32::saturating_add`. -/
def saturatingAdd (a b : Nat) : Nat := min (a + b) 0xffffffff

def isReduce : Op → Bool
  | .reduce .. => true
  | _ => false

/-- The shared bytes and register units with one more member. -/
def addMember (a : IrArena) (used : Nat × Nat) (m : NodeId) : Nat × Nat :=
  match a.node m with
  | .error _ => used
  | .ok n =>
    let units := saturatingAdd used.2 8
    (saturatingAdd used.1 (min n.ty.byteSize 0xffffffff),
      if isReduce n.op then saturatingAdd units 16 else units)

def resourceEstimate (a : IrArena) (members : List NodeId) : ResourceEstimate :=
  let (sharedBytes, registerUnits) := members.foldl (addMember a) (0, 0)
  { sharedBytes, registerUnits
    occupancyHint :=
      if sharedBytes = 0 then REGISTER_BUDGET_UNITS / max registerUnits 1
      else max (SHARED_MEM_BUDGET_BYTES / max sharedBytes 1) 1 }

-- ---------------------------------------------------------------------------
-- Repair
-- ---------------------------------------------------------------------------

inductive RepairAction where
  | splitCluster (node : NodeId)
  | rematerialize (node : NodeId)
  | insertCopy (node : NodeId)
deriving DecidableEq, Repr

/-- The first member whose bytes no later one's beat. -/
def pick (a : IrArena) (beats : Nat → Nat → Bool) (members : List NodeId) : Option (NodeId × Nat) :=
  members.foldl (fun best m =>
    match a.node m, best with
    | .error _, _ => best
    | .ok n, none => some (m, n.ty.byteSize)
    | .ok n, some (_, bytes) =>
      if beats n.ty.byteSize bytes then some (m, n.ty.byteSize) else best) none

/-- Too many bytes: the largest member leaves. Too many registers: the
cheapest one is computed again where it is used. -/
def repairCluster (a : IrArena) (members : List NodeId) (estimate : ResourceEstimate) :
    Option RepairAction :=
  if !estimate.overBudget then none
  else if estimate.sharedBytes > SHARED_MEM_BUDGET_BYTES then
    (pick a (fun bytes best => bytes > best) members).map fun best => .splitCluster best.1
  else
    (pick a (fun bytes best => bytes < best) members).map fun best => .rematerialize best.1

end Fusion

end Sxla
