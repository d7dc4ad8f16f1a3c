import Sxla.Fusion.Budget
import Sxla.Fusion.Owners

/-!
# Crossing edges

What scoring and building price: the uses whose ends are in different groups
behind joining and repair. The sum here is exact, so it says where the plain
`u64` sums of the source overflow.
-/

namespace Sxla

namespace Fusion

open Saturating Forest

variable {a : IrArena} {u : Universe} {parent : List Nat} {f g : NodeId → Nat} {x y id : NodeId}
  {edge : NodeId × NodeId}

/-- The group of each live node behind joining and repair. -/
def finalLabel (a : IrArena) (u : Universe) : NodeId → Nat :=
  (settle a)^[a.liveIds.length] fun id => fusedLabel a u id.index

/-- The group of a slot's live node. -/
def slotLabel (a : IrArena) (u : Universe) (i : Nat) : Option Nat :=
  (a.liveIds.find? (·.index = i)).map (finalLabel a u)

def splits (a : IrArena) (u : Universe) (edge : NodeId × NodeId) : Bool :=
  slotLabel a u edge.1.index ≠ slotLabel a u edge.2.index

def crossingBytes (a : IrArena) (u : Universe) : Nat :=
  (((uses a).filter (splits a u)).map (edgeBytes a)).sum

-- ---------------------------------------------------------------------------
-- Groups
-- ---------------------------------------------------------------------------

theorem settle_congr (h : ∀ id ∈ a.liveIds, f id = g id) (hid : id ∈ a.liveIds) :
    settle a f id = settle a g id := by
  unfold settle
  rw [mates_congr h, h id hid]

theorem iterate_settle_congr (h : ∀ id ∈ a.liveIds, f id = g id) (rounds : Nat) :
    ∀ id ∈ a.liveIds, (settle a)^[rounds] f id = (settle a)^[rounds] g id := by
  induction rounds generalizing f g with
  | zero => exact h
  | succ rounds ih => exact ih fun id hid => settle_congr h hid

theorem iterate_settle_of_stable (h : Stable a f) (rounds : Nat) :
    ∀ id ∈ a.liveIds, (settle a)^[rounds] f id = f id := by
  induction rounds with
  | zero => exact fun _ _ => rfl
  | succ rounds ih =>
    intro id hid
    rw [Function.iterate_succ_apply,
      iterate_settle_congr (fun _ hid => settle_of_stable h hid) rounds id hid]
    exact ih id hid

/-- A round that takes nothing out is the last one, and all later ones would
take nothing out either. -/
theorem repairRounds_roots {rounds : Nat} (h : Descending parent)
    (hlength : parent.length = a.slotCount) : ∀ id ∈ a.liveIds,
      rootOf (repairRounds a a.liveIds rounds parent) id =
        (settle a)^[rounds] (rootOf parent) id := by
  induction rounds generalizing parent with
  | zero => exact fun _ _ => rfl
  | succ rounds ih =>
    intro id hid
    obtain ⟨hdesc, hlen, hroots, hfalse⟩ := round_spec h hlength
    rw [repairRounds_succ, Function.iterate_succ_apply]
    split
    · rw [ih hdesc hlen id hid]
      exact iterate_settle_congr hroots rounds id hid
    · next hchanged =>
      have hs := stable_of_none (hfalse (Bool.eq_false_iff.mpr hchanged))
      have hsettle : ∀ id ∈ a.liveIds, settle a (rootOf parent) id = rootOf parent id :=
        fun _ hid => settle_of_stable hs hid
      rw [hroots id hid, iterate_settle_congr hsettle rounds id hid,
        iterate_settle_of_stable hs rounds id hid, hsettle id hid]

theorem grouping_roots (a : IrArena) (u : Universe) : ∀ id ∈ a.liveIds,
    rootOf (grouping a u false) id = finalLabel a u id := by
  have h := joined_labelled a u false
  intro id hid
  refine (repairRounds_roots h.descending h.length id hid).trans ?_
  exact iterate_settle_congr (fun id hid => h.root _ (index_lt_of_mem_liveIds hid)) _ id hid

theorem slotLabel_eq (h : id ∈ a.liveIds) : slotLabel a u id.index = some (finalLabel a u id) := by
  obtain ⟨y, hy⟩ := Option.isSome_iff_exists.mp
    (List.find?_isSome.mpr ⟨id, h, by simp⟩ : (a.liveIds.find? (·.index = id.index)).isSome)
  have hindex : y.index = id.index := by simpa using List.find?_some hy
  rw [slotLabel, hy, eq_of_index (List.mem_of_find?_eq_some hy) h hindex]
  rfl

theorem splits_eq (hx : x ∈ a.liveIds) (hy : y ∈ a.liveIds) (h : x.index = edge.1.index)
    (h' : y.index = edge.2.index) :
    splits a u edge = decide (rootOf (grouping a u false) x ≠ rootOf (grouping a u false) y) := by
  rw [splits, ← h, ← h', slotLabel_eq hx, slotLabel_eq hy, grouping_roots a u x hx,
    grouping_roots a u y hy]
  simp

-- ---------------------------------------------------------------------------
-- Edges
-- ---------------------------------------------------------------------------

theorem exists_liveId {i : Nat} (h : i ∈ a.liveSlots) : ∃ p ∈ a.liveIds, p.index = i := by
  obtain ⟨id, n, hn, hi⟩ := IrArena.exists_live h
  exact ⟨id, List.mem_map.mpr ⟨(id, n), hn, rfl⟩, hi⟩

/-- Without freed slots a producer that has bytes is live, if perhaps under
another level. -/
theorem exists_producer (hfree : a.nodeFree = []) (h : edgeBytes a edge ≠ 0) :
    ∃ p ∈ a.liveIds, p.index = edge.1.index := by
  refine exists_liveId (IrArena.mem_liveSlots.mpr ⟨?_, by simp [hfree]⟩)
  unfold edgeBytes at h
  split at h
  · next n hn => exact IrArena.index_lt_of_node hn
  · exact absurd rfl h

theorem exists_consumer (h : edge ∈ uses a) : edge.2 ∈ a.liveIds := by
  obtain ⟨n, hn, -⟩ := mem_uses h
  exact List.mem_map.mpr ⟨(edge.2, n), hn, rfl⟩

/-- Where only the predicates of edges without bytes differ. -/
theorem sum_filter_congr {α : Type} {l : List α} {p q : α → Bool} {bytes : α → Nat}
    (h : ∀ x ∈ l, bytes x ≠ 0 → p x = q x) :
    ((l.filter p).map bytes).sum = ((l.filter q).map bytes).sum := by
  induction l with
  | nil => rfl
  | cons x l ih =>
    have hih := ih fun x hx => h x (List.mem_cons_of_mem _ hx)
    have hx := h x List.mem_cons_self
    by_cases hzero : bytes x = 0
    · cases hp : p x <;> cases hq : q x <;> simp [hp, hq, hzero, hih]
    · rw [List.filter_cons, List.filter_cons, hx hzero]
      split <;> simp [hih]

theorem externalEdgeBytes_eq {κ : Type} [DecidableEq κ] {clusterOf : NodeId → Option κ}
    (h : ∀ edge ∈ uses a, edgeBytes a edge ≠ 0 → crosses clusterOf edge = splits a u edge) :
    externalEdgeBytes a clusterOf =
      if crossingBytes a u ≤ u64Max then some (crossingBytes a u) else none := by
  rw [externalEdgeBytes, checkedSum_eq, sum_filter_congr h]
  rfl

/-- Every live slot points at its root, so scoring reads the groups. -/
theorem scored_bytes (hfree : a.nodeFree = []) (u : Universe) :
    externalEdgeBytes a (groupOf (grouping a u false)) =
      if crossingBytes a u ≤ u64Max then some (crossingBytes a u) else none := by
  refine externalEdgeBytes_eq fun edge hedge hbytes => ?_
  obtain ⟨p, hp, hindex⟩ := exists_producer hfree hbytes
  have hc := exists_consumer hedge
  have hflat := (grouping_spec a u false).2.2
  have hp' : groupOf (grouping a u false) edge.1 = some (rootOf (grouping a u false) p) := by
    rw [groupOf, ← hindex]
    exact hflat p hp
  have hc' : groupOf (grouping a u false) edge.2 = some (rootOf (grouping a u false) edge.2) :=
    hflat edge.2 hc
  rw [splits_eq hp hc hindex rfl]
  simp [crosses, hp', hc']

theorem built_bytes (hfree : a.nodeFree = []) (hslots : a.slotCount ≤ 2 ^ 32) (u : Universe) :
    ∃ cs, materialize a (grouping a u false) = .ok cs ∧ externalEdgeBytes a cs.clusterOf =
      if crossingBytes a u ≤ u64Max then some (crossingBytes a u) else none := by
  obtain ⟨hdesc, hlength, -⟩ := grouping_spec a u false
  obtain ⟨cs, hcs, howners⟩ := materialize_owned hdesc hlength hslots
  refine ⟨cs, hcs, externalEdgeBytes_eq fun edge hedge hbytes => ?_⟩
  obtain ⟨p, hp, hindex⟩ := exists_producer hfree hbytes
  have hc := exists_consumer hedge
  have hsame : cs.clusterOf edge.1 = cs.clusterOf p := by
    rw [ClusterSet.clusterOf, ← hindex]
    rfl
  rw [splits_eq hp hc hindex rfl, ← crosses_owned hslots howners hp hc]
  simp only [crosses, hsame]

end Fusion

end Sxla
