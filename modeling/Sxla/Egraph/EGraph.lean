import Mathlib
import Sxla.Egraph.UnionFind
import Sxla.Ir.Hash

/-!
# The e-graph

E-nodes, their classes, and the union-find over class ids. A merge moves the
members of one class behind those of the other; `rebuild` makes the children
canonical and merges what became congruent.

Ids and classes are natural numbers: the source's `u32` counters would wrap
only after as many nodes as a `u32` counts.
-/

namespace Sxla

open Std (TreeMap)

inductive EgraphError where
  | full
  | badClass
  | union (e : UnionFindError)
  | dce
  | tooManyChildren
deriving DecidableEq, Repr

/-- `children` is the used part of the source's array. -/
structure ENode where
  op : Op
  children : List Nat
  seq : Nat
deriving DecidableEq, Repr

/-- Float constants are compared by their bits. -/
def opCongruent : Op → Op → Bool
  | .constF64 x, .constF64 y => x.bits == y.bits
  | x, y => x == y

def ENode.congruentTo (n : ENode) (op : Op) (children : List Nat) : Bool :=
  opCongruent n.op op && n.children == children

structure EGraph where
  nodes : List ENode
  nodeClass : List Nat
  classes : TreeMap Nat (List Nat)
  uf : UnionFind
  lookup : TreeMap UInt64 Nat
  nextClass : Nat
  capacity : Nat

namespace EGraph

def new (nodeBudget : Nat) : EGraph := ⟨[], [], ∅, .new (nodeBudget * 2), ∅, 0, nodeBudget⟩

/-- The structural hash of an e-node. -/
def key (op : Op) (children : List Nat) : UInt64 :=
  (children.foldl (fun h c => h.writeU32 (.ofNat c)) (op.hashInto .new)).finish

/-- `get(..).ok_or(BadClass)`. -/
def need : Option α → Except EgraphError α
  | some x => .ok x
  | none => .error .badClass

def pushMember (classes : TreeMap Nat (List Nat)) (cls id : Nat) : TreeMap Nat (List Nat) :=
  classes.insert cls (classes.getD cls [] ++ [id])

/-- A new node in a class of its own. -/
def mint (g : EGraph) (op : Op) (children : List Nat) : Nat × EGraph :=
  let id := g.nodes.length
  (g.nextClass,
    { g with
      nodes := g.nodes ++ [⟨op, children, id⟩]
      nodeClass := g.nodeClass ++ [g.nextClass]
      lookup := g.lookup.insert (key op children) id
      classes := pushMember g.classes g.nextClass id
      nextClass := g.nextClass + 1 })

def add (g : EGraph) (op : Op) (children : List Nat) : Except EgraphError (Nat × EGraph) :=
  if g.nodes.length ≥ g.capacity then .error .full
  else if children.length > 4 then .error .tooManyChildren
  else
    match g.lookup[key op children]? with
    | none => .ok (g.mint op children)
    | some existing => do
      let ex ← need g.nodes[existing]?
      if ex.congruentTo op children then
        let cls ← need g.nodeClass[existing]?
        let root ← (g.uf.findRo cls).mapError .union
        return (root, g)
      else
        return g.mint op children

/-- The members of the loser go to the winner, whose list is sorted again. -/
def moveMembers (classes : TreeMap Nat (List Nat)) (loser winner : Nat) :
    TreeMap Nat (List Nat) :=
  match classes[loser]? with
  | none => classes
  | some members =>
    let classes := classes.erase loser
    classes.insert winner ((classes.getD winner [] ++ members).insertionSort (· ≤ ·))

def merge (g : EGraph) (a b : Nat) : Except EgraphError (Nat × EGraph) := do
  let (ca, uf) ← (g.uf.find a).mapError .union
  let (cb, uf) ← (uf.find b).mapError .union
  let (winner, uf) ← (uf.union ca cb).mapError .union
  let loser := if winner = ca then cb else ca
  return (winner, { g with uf, classes := moveMembers g.classes loser winner })

/-- Finds one child after the other. -/
def canonChildren (uf : UnionFind) : List Nat → Except UnionFindError (List Nat × UnionFind)
  | [] => .ok ([], uf)
  | c :: cs => do
    let (r, uf) ← uf.find c
    let (rs, uf) ← canonChildren uf cs
    return (r :: rs, uf)

def canonNodes (uf : UnionFind) : List ENode → Except UnionFindError (List ENode × UnionFind)
  | [] => .ok ([], uf)
  | n :: ns => do
    let (children, uf) ← canonChildren uf n.children
    let (ns, uf) ← canonNodes uf ns
    return ({ n with children } :: ns, uf)

/-- The second pass of `rebuild`: the new lookup map and the merges so far. -/
structure Rebuild where
  graph : EGraph
  newLookup : TreeMap UInt64 Nat
  merged : Nat

/-- One node of the second pass; the earlier of two nodes keeps the entry. -/
def Rebuild.visit (r : Rebuild) (i : Nat) : Except EgraphError Rebuild := do
  let node ← need r.graph.nodes[i]?
  match r.newLookup[key node.op node.children]? with
  | none => return { r with newLookup := r.newLookup.insert (key node.op node.children) i }
  | some existing =>
    let ex ← need r.graph.nodes[existing]?
    if ex.congruentTo node.op node.children then
      let ca ← (r.graph.uf.findRo (← need r.graph.nodeClass[existing]?)).mapError .union
      let cb ← (r.graph.uf.findRo (← need r.graph.nodeClass[i]?)).mapError .union
      if ca = cb then return r
      let (_, graph) ← r.graph.merge ca cb
      return { r with graph, merged := r.merged + 1 }
    else
      return r

def rebuild (g : EGraph) : Except EgraphError (Nat × EGraph) := do
  let (nodes, uf) ← (canonNodes g.uf g.nodes).mapError .union
  let r ← (List.range nodes.length).foldlM Rebuild.visit ⟨{ g with nodes, uf }, ∅, 0⟩
  return (r.merged, { r.graph with lookup := r.newLookup })

def canon (g : EGraph) (cls : Nat) : Except EgraphError (Nat × EGraph) := do
  let (root, uf) ← (g.uf.find cls).mapError .union
  return (root, { g with uf })

end EGraph

end Sxla
