import Sxla.Ir.Arena
import Sxla.Library.Checked
import Sxla.Library.Kahn

/-!
# The schedulers

`schedule` makes passes over the live nodes in slot order and emits whatever
is ready; `scheduleFused` emits one node a step and prefers the cluster of
the node before. Both share the tables of Kahn's algorithm, so both are
runs of it, and the facts about their orders follow from that.

Positions are indices into the list of live ids. Effect inputs are not part
of the tables.
-/

namespace Sxla

open DepOrder Checked

inductive ScheduleError where
  | cycle
  | unknownNode
deriving DecidableEq, Repr

namespace Schedule

/-- `pos_of`: where a live slot stands among the live ids. -/
def posOf (a : IrArena) (slot : Nat) : Option Nat :=
  a.liveIds.findIdx? (·.index == slot)

def producerPos (a : IrArena) (v : ValueId) : Except ScheduleError Nat :=
  match posOf a v.node.index with
  | some p => .ok p
  | none => .error .unknownNode

def nodeProducers (a : IrArena) (id : NodeId) : Except ScheduleError (List Nat) :=
  match a.node id with
  | .ok n => n.valueInputs.mapM (producerPos a)
  | .error _ => .error .unknownNode

/-- The producers of each live node; in-degrees and consumer lists are read
off this table. -/
def producers (a : IrArena) : Except ScheduleError (List (List Nat)) :=
  a.liveIds.mapM (nodeProducers a)

def idAt (a : IrArena) (pos : Nat) : NodeId := a.liveIds.getD pos .NONE

-- ---------------------------------------------------------------------------
-- Batched passes
-- ---------------------------------------------------------------------------

def emitIfReady (producers : List (List Nat)) (s : Kahn.State) (pos : Nat) : Kahn.State :=
  if Kahn.ready s pos then Kahn.emit producers s pos else s

/-- One pass of the `for pos in 0..ids.len()` loop. -/
def pass (producers : List (List Nat)) (s : Kahn.State) : Kahn.State :=
  (List.range producers.length).foldl (emitIfReady producers) s

/-- The `while remaining > 0` loop; `none` is `Cycle`. A pass that makes
progress emits a node, so one unit of fuel per node is enough. -/
def passes (producers : List (List Nat)) : Nat → Kahn.State → Option Kahn.State
  | fuel, s =>
    if s.order.length = producers.length then some s
    else
      match fuel with
      | 0 => none
      | fuel + 1 =>
        let s' := pass producers s
        if s'.order.length = s.order.length then none else passes producers fuel s'

-- ---------------------------------------------------------------------------
-- One node a step, by cluster
-- ---------------------------------------------------------------------------

/-- `(cluster != active, slot)`, compared lexicographically. -/
def keyLt (k k' : Bool × Nat) : Bool :=
  (!k.1 && k'.1) || (k.1 == k'.1 && k.2 < k'.2)

def key (a : IrArena) (clusterOf : NodeId → Option UInt32) (active : Option UInt32)
    (pos : Nat) : Bool × Nat :=
  (clusterOf (idAt a pos) != active, (idAt a pos).index)

def better (key : Nat → Bool × Nat) (s : Kahn.State) (best : Option Nat) (pos : Nat) :
    Option Nat :=
  if !Kahn.ready s pos then best
  else
    match best with
    | none => some pos
    | some b => if keyLt (key pos) (key b) then some pos else best

/-- The ready position with the least key. -/
def pick (key : Nat → Bool × Nat) (count : Nat) (s : Kahn.State) : Option Nat :=
  (List.range count).foldl (better key s) none

def steps (a : IrArena) (producers : List (List Nat)) (clusterOf : NodeId → Option UInt32) :
    Nat → Option UInt32 → Kahn.State → Option Kahn.State
  | fuel, active, s =>
    if s.order.length = producers.length then some s
    else
      match fuel with
      | 0 => none
      | fuel + 1 =>
        match pick (key a clusterOf active) producers.length s with
        | none => none
        | some pos =>
          steps a producers clusterOf fuel (clusterOf (idAt a pos)) (Kahn.emit producers s pos)

end Schedule

open Schedule

def schedule (a : IrArena) : Except ScheduleError (List NodeId) := do
  let producers ← producers a
  match passes producers producers.length (Kahn.init producers) with
  | some s => return s.order.map (idAt a)
  | none => throw .cycle

def scheduleFused (a : IrArena) (clusterOf : NodeId → Option UInt32) :
    Except ScheduleError (List NodeId) := do
  let producers ← producers a
  match steps a producers clusterOf producers.length none (Kahn.init producers) with
  | some s => return s.order.map (idAt a)
  | none => throw .cycle

end Sxla
