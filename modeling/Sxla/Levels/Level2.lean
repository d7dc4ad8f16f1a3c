import Sxla.Ir.Arena

/-!
# Fusion clusters

A cluster set names clusters and gives some node slots an owner. The edges
between clusters are not kept in it: nothing downstream of the projection
reads them, and the searches that derive them return them on the side.
-/

namespace Sxla

structure Cluster where
  members : List NodeId
  sharedBudget : UInt32
  registerBudget : UInt32
  materialize : Bool
deriving DecidableEq, Repr

structure ClusterSet where
  clusters : List Cluster
  owner : List (Option UInt32)
deriving DecidableEq, Repr

inductive ClusterError where
  | duplicateNode
  | unknownNode
deriving DecidableEq, Repr

namespace ClusterSet

def new (a : IrArena) : ClusterSet := ⟨[], List.replicate a.slotCount none⟩

def empty : ClusterSet := ⟨[], []⟩

def addCluster (cs : ClusterSet) (sharedBudget registerBudget : UInt32) :
    UInt32 × ClusterSet :=
  (.ofNat cs.clusters.length,
    { cs with clusters := cs.clusters ++ [⟨[], sharedBudget, registerBudget, false⟩] })

/-- Members stay sorted by slot; a new one goes behind its equals. -/
def insertMember (node : NodeId) : List NodeId → List NodeId
  | [] => [node]
  | m :: ms => if node.index < m.index then node :: m :: ms else m :: insertMember node ms

def assign (cs : ClusterSet) (cluster : UInt32) (node : NodeId) :
    Except ClusterError ClusterSet :=
  match cs.owner[node.index]? with
  | none => .error .unknownNode
  | some (some _) => .error .duplicateNode
  | some none =>
    .ok
      { owner := cs.owner.set node.index (some cluster)
        clusters := cs.clusters.modify cluster.toNat fun c =>
          { c with members := insertMember node c.members } }

def setMaterialize (cs : ClusterSet) (cluster : UInt32) (materialize : Bool) : ClusterSet :=
  { cs with clusters := cs.clusters.modify cluster.toNat fun c => { c with materialize } }

def clusterOf (cs : ClusterSet) (node : NodeId) : Option UInt32 :=
  (cs.owner[node.index]?).join

def isEmpty (cs : ClusterSet) : Bool := cs.clusters.isEmpty

def cluster (cs : ClusterSet) (index : UInt32) : Option Cluster := cs.clusters[index.toNat]?

/-- The uses across clusters. -/
def crossing (cs : ClusterSet) (a : IrArena) : List (UInt32 × UInt32) :=
  a.liveNodes.flatMap fun (id, n) =>
    match cs.clusterOf id with
    | none => []
    | some consumer => n.valueInputs.filterMap fun v =>
        (cs.clusterOf v.node).bind fun p => if p = consumer then none else some (p, consumer)

/-- Sorted and without duplicates. -/
def deriveEdges (cs : ClusterSet) (a : IrArena) : List (UInt32 × UInt32) :=
  ((cs.crossing a).mergeSort fun e f => e.1 < f.1 || e.1 = f.1 && e.2 ≤ f.2).eraseDups

/-- The cluster sets that these operations can build. -/
inductive Built : ClusterSet → Prop
  | new (a : IrArena) : Built (.new a)
  | empty : Built .empty
  | addCluster : Built cs → Built (cs.addCluster sharedBudget registerBudget).2
  | assign {index : UInt32} : Built cs → cs.assign index node = .ok cs' → Built cs'
  | setMaterialize {index : UInt32} : Built cs → Built (cs.setMaterialize index materialize)

/-- Nodes with slots of their own can all be put into one cluster. -/
theorem exists_assigned {ids : List NodeId} {cs : ClusterSet} (h : Built cs)
    (hc : cs.clusters ≠ []) (hnd : (ids.map (·.index)).Nodup)
    (hfree : ∀ id ∈ ids, cs.owner[id.index]? = some none) :
    ∃ cs', Built cs' ∧ cs'.clusters ≠ [] ∧
      (∀ id ∈ ids, cs'.clusterOf id = some c) ∧
      ∀ id, id.index ∉ ids.map (·.index) → cs'.clusterOf id = cs.clusterOf id := by
  induction ids generalizing cs with
  | nil => exact ⟨cs, h, hc, by simp, by simp⟩
  | cons id ids ih =>
    obtain ⟨hni, hnd⟩ := List.nodup_cons.mp hnd
    have hid := hfree id (by simp)
    have hlt := (List.getElem?_eq_some_iff.mp hid).1
    have hassign : cs.assign c id = .ok
        { owner := cs.owner.set id.index (some c)
          clusters := cs.clusters.modify c.toNat fun c =>
            { c with members := insertMember id c.members } } := by
      simp [assign, hid]
    obtain ⟨cs', hb, hne, hin, hout⟩ := ih (h.assign hassign) (by simpa using hc) hnd (by
      intro p hp
      have hne : id.index ≠ p.index := fun he => hni (List.mem_map.mpr ⟨p, hp, he.symm⟩)
      simpa [List.getElem?_set_ne hne] using hfree p (List.mem_cons_of_mem _ hp))
    refine ⟨cs', hb, hne, fun p hp => ?_, fun p hp => ?_⟩
    · rcases List.mem_cons.mp hp with rfl | hp
      · exact (hout p hni).trans (by simp [clusterOf, List.getElem?_set_self hlt])
      · exact hin p hp
    · simp only [List.map_cons, List.mem_cons, not_or] at hp
      exact (hout p hp.2).trans (by simp [clusterOf, List.getElem?_set_ne (Ne.symm hp.1)])

end ClusterSet

end Sxla
