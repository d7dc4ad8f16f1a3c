import Sxla.Egraph.Rules

/-!
# Lifting and saturation rounds

The pure nodes of an arena with pure operands become e-nodes, and rounds of
rules then work on one graph. Beside the graph stand tables that must follow
it: the class of a lifted node, the node an e-node was lifted from, and the
constant of a class.
-/

namespace Sxla

open EGraph (need)

/-- `children` is the used part of the source's array. -/
structure LiftRecord where
  node : NodeId
  op : Op
  children : List Nat
  elem : Option ScalarType
deriving DecidableEq, Repr

structure LiftedGraph where
  g : EGraph
  recs : List LiftRecord
  /-- Class of the node in a slot, canonical when it was recorded. -/
  nodeClass : List (Option Nat)
  /-- Node of an e-node; none where a rule has made it. -/
  xirOf : List (Option NodeId)
  classConst : List (Option ConstVal)

namespace LiftedGraph

def new (a : IrArena) (budget : Nat) : LiftedGraph :=
  ⟨.new budget, [], .replicate a.slotCount none, [], .replicate (budget + 1) none⟩

/-- `add` with its entry in `xirOf`, when an e-node was appended. -/
def append (lg : LiftedGraph) (op : Op) (children : List Nat) (x : Option NodeId) :
    Except EgraphError (Nat × LiftedGraph) := do
  let (cls, g) ← lg.g.add op children
  let xirOf := if g.nodes.length > lg.g.nodes.length then lg.xirOf ++ [x] else lg.xirOf
  return (cls, { lg with g, xirOf })

def setConst (lg : LiftedGraph) (cls : Nat) (v : Option ConstVal) : LiftedGraph :=
  match v with
  | some v => { lg with classConst := lg.classConst.set cls (some v) }
  | none => lg

/-- The entries for a lifted node. -/
def record (lg : LiftedGraph) (id : NodeId) (node : Node) (children : List Nat) (cls : Nat) :
    LiftedGraph :=
  let lg := { lg with nodeClass := lg.nodeClass.set id.index (some cls) }
  let lg := lg.setConst cls (constOfOp node.op)
  { lg with recs := lg.recs ++ [⟨id, node.op, children, Verifier.elemOf node.ty⟩] }

def canon (lg : LiftedGraph) (cls : Nat) : Except EgraphError (Nat × LiftedGraph) := do
  let (root, g) ← lg.g.canon cls
  return (root, { lg with g })

def merge (lg : LiftedGraph) (x y : Nat) : Except EgraphError (Nat × LiftedGraph) := do
  let (winner, g) ← lg.g.merge x y
  return (winner, { lg with g })

end LiftedGraph

-- ---------------------------------------------------------------------------
-- Lifting
-- ---------------------------------------------------------------------------

/-- A pure op with pure operands. -/
def liftable (a : IrArena) (n : Node) : Bool :=
  n.op.isPure && n.valueInputs.all fun v =>
    v.node.isNone || match a.node v.node with
      | .ok p => p.op.isPure
      | .error _ => false

structure LiftPass where
  graph : LiftedGraph
  next : List NodeId
  progressed : Bool

namespace LiftPass

/-- The class of one more operand; none where its node has no class yet or
four are there already. -/
def child (nodeClass : List (Option Nat)) (children : List Nat) (v : ValueId) :
    Option (List Nat) :=
  if v.node.isNone then some children
  else
    match nodeClass[v.node.index]?.join with
    | some c => if children.length < 4 then some (children ++ [c]) else none
    | none => none

/-- One node of a pass: it is lifted, or left to the next one. -/
def visit (a : IrArena) (s : LiftPass) (id : NodeId) : Except EgraphError LiftPass := do
  let node ← (a.node id).mapError fun _ => .badClass
  match node.valueInputs.foldlM (child s.graph.nodeClass) [] with
  | none => return { s with next := s.next ++ [id] }
  | some children => do
    let (cls, lg) ← s.graph.append node.op children (some id)
    return ⟨lg.record id node children cls, s.next, true⟩

end LiftPass

/-- Passes over what remains, up to the first one without progress. -/
def liftPasses (a : IrArena) : Nat → LiftedGraph → List NodeId → Except EgraphError LiftedGraph
  | 0, lg, _ => .ok lg
  | fuel + 1, lg, remaining =>
    if remaining.isEmpty then .ok lg
    else do
      let s ← remaining.foldlM (LiftPass.visit a) ⟨lg, [], false⟩
      if s.progressed then liftPasses a fuel s.graph s.next else return s.graph

def lift (a : IrArena) (budget : Nat) : Except EgraphError LiftedGraph :=
  liftPasses a (a.slotCount + 2) (.new a budget)
    ((a.liveNodes.filter fun e => liftable a e.2).map (·.1))

-- ---------------------------------------------------------------------------
-- Rounds
-- ---------------------------------------------------------------------------

def MAX_ROUNDS : Nat := 4

structure RuleSnap where
  op : Op
  children : List Nat
  consts : List (Option ConstVal)
  elem : Option ScalarType
deriving DecidableEq, Repr

namespace LiftedGraph

def constOf (lg : LiftedGraph) (cls : Nat) : Option ConstVal := lg.classConst[cls]?.join

/-- The loser's constant goes to the winner, if that has none. -/
def propagateConst (lg : LiftedGraph) (winner loser : Nat) : LiftedGraph :=
  match lg.constOf loser with
  | none => lg
  | some v => if (lg.constOf winner).isNone then lg.setConst winner (some v) else lg

/-- The rule inputs of the records, their children's classes made canonical. -/
def snaps (lg : LiftedGraph) : List LiftRecord → Except EgraphError (List RuleSnap × LiftedGraph)
  | [] => .ok ([], lg)
  | r :: recs => do
    let (children, uf) ← (EGraph.canonChildren lg.g.uf r.children).mapError .union
    let lg := { lg with g := { lg.g with uf } }
    let (rest, lg) ← lg.snaps recs
    return (⟨r.op, children, children.map lg.constOf, r.elem⟩ :: rest, lg)

/-- The class of a record's node. -/
def own (lg : LiftedGraph) (r : LiftRecord) : Except EgraphError (Nat × LiftedGraph) := do
  lg.canon (← need lg.nodeClass[r.node.index]?.join)

/-- The folded constant joins the node's class, or the node's class joins that
of the operand that is left. Other forms of a rewrite are skipped. -/
def fire (lg : LiftedGraph) (r : LiftRecord) (rw : Rewrite) :
    Except EgraphError (LiftedGraph × Nat) := do
  let (own, lg) ← lg.own r
  match rw.children with
  | [] => do
    let (cls, lg) ← lg.append rw.op [] none
    let (winner, lg) ← lg.merge own cls
    return (lg.setConst winner (constOfOp rw.op), 1)
  | [child] =>
    if rw.op = Rewrite.marker then do
      let (winner, lg) ← lg.merge own child
      let loser := if winner = own then child else own
      return (lg.propagateConst winner loser, 1)
    else return (lg, 0)
  | _ => return (lg, 0)

def applyRule (s : LiftedGraph × Nat) (e : LiftRecord × Option Rewrite) :
    Except EgraphError (LiftedGraph × Nat) :=
  match e.2 with
  | none => .ok s
  | some rw => do
    let (lg, fired) ← s.1.fire e.1 rw
    return (lg, s.2 + fired)

/-- The operands swapped, as an e-node of the same class. -/
def commute (s : LiftedGraph × Nat) (r : LiftRecord) : Except EgraphError (LiftedGraph × Nat) :=
  match r.children with
  | [x, y] =>
    if commutative r.op r.elem then do
      let (c0, lg) ← s.1.canon x
      let (c1, lg) ← lg.canon y
      if c0 = c1 then return (lg, s.2)
      let (own, lg) ← lg.own r
      let (swapped, lg) ← lg.append r.op [c1, c0] none
      let (swapped, lg) ← lg.canon swapped
      if own = swapped then return (lg, s.2)
      let (winner, lg) ← lg.merge own swapped
      return ((lg.propagateConst winner own).propagateConst winner swapped, s.2 + 1)
    else return s
  | _ => .ok s

/-- A constant goes to its class's canonical id. -/
def rehome (lg : LiftedGraph) (cls : Nat) : Except EgraphError LiftedGraph :=
  if (lg.constOf cls).isSome then do
    let (canon, lg) ← lg.canon cls
    return lg.propagateConst canon cls
  else .ok lg

structure Round where
  graph : LiftedGraph
  fired : Nat
  merged : Nat

/-- The rules see the records as they were when the round began. -/
def round (lg : LiftedGraph) : Except EgraphError Round := do
  let recs := lg.recs
  let (snaps, lg) ← lg.snaps recs
  let results := snaps.map fun s => localRules s.op s.children s.consts s.elem
  let (lg, fired) ← (recs.zip results).foldlM applyRule (lg, 0)
  let (lg, commuted) ← recs.foldlM commute (lg, 0)
  let (merged, g) ← lg.g.rebuild
  let lg := { lg with g }
  let lg ← (List.range lg.classConst.length).foldlM rehome lg
  return ⟨lg, fired + commuted, merged⟩

/-- Rounds until nothing fires and nothing is merged. -/
def rounds : Nat → LiftedGraph → Nat → Except EgraphError (Nat × LiftedGraph)
  | 0, lg, applied => .ok (applied, lg)
  | fuel + 1, lg, applied => do
    let r ← lg.round
    if r.fired = 0 ∧ r.merged = 0 then return (applied + r.fired, r.graph)
    rounds fuel r.graph (applied + r.fired)

def runRounds (lg : LiftedGraph) : Except EgraphError (Nat × LiftedGraph) :=
  rounds MAX_ROUNDS lg 0

end LiftedGraph

end Sxla
