import Sxla.Fusion.Groups

/-!
# Owners

Building assigns every live node to the cluster of its root, and no
assignment fails. So an edge between live nodes crosses the clusters built
exactly where their roots differ.
-/

namespace Sxla

namespace Fusion

open Checked Forest

variable {a : IrArena} {parent : List Nat} {id x y : NodeId} {done : List NodeId} {b : Building}

/-- The owners behind the nodes placed so far. -/
structure Owned (a : IrArena) (parent : List Nat) (done : List NodeId) (b : Building) : Prop where
  length : b.clusters.owner.length = a.slotCount
  free : ∀ x ∈ a.liveIds, x ∉ done → b.clusters.owner[x.index]? = some none
  owned : ∀ x ∈ done, b.clusters.clusterOf x =
    ((keysOf (rootOf parent) done).idxOf? (rootOf parent x)).map .ofNat

theorem mem_keysOf {f : NodeId → Nat} (h : x ∈ done) : f x ∈ keysOf f done :=
  ((@groupsBy_spec done f).2.1 _).mpr ⟨x, h, rfl⟩

/-- A later node does not move the groups of the earlier ones. -/
theorem idxOf?_keysOf {f : NodeId → Nat} (h : x ∈ done) (id : NodeId) :
    (keysOf f (done ++ [id])).idxOf? (f x) = (keysOf f done).idxOf? (f x) := by
  rw [keysOf_append]
  split
  · rfl
  · next hid =>
    have hne : f x ≠ f id := fun he => hid (he ▸ mem_keysOf h)
    rw [idxOf?_concat hid, if_neg hne]

/-- A node goes to the cluster of its root, or to a new one. -/
theorem place_eq {c : Option UInt32} (hfree : b.clusters.owner[id.index]? = some none)
    (hc : (b.rootCluster[(findRoot b.parent id.index).1]?).join = c) :
    ∃ b', place a b id = .ok b' ∧ b'.clusters.owner =
      b.clusters.owner.set id.index (some (c.getD (.ofNat b.clusters.clusters.length))) := by
  suffices h : (place a b id).map (·.clusters.owner) =
      .ok (b.clusters.owner.set id.index (some (c.getD (.ofNat b.clusters.clusters.length)))) by
    obtain ⟨b', hplace, howner⟩ := map_ok.mp h
    exact ⟨b', hplace, howner⟩
  cases c with
  | some c => simp [place, hc, ClusterSet.assign, hfree, Except.map]
  | none => simp [place, hc, ClusterSet.assign, ClusterSet.addCluster, hfree, Except.map]

theorem place_owned (h : Housed a parent done b) (ho : Owned a parent done b)
    (hid : id ∈ a.liveIds) (hnew : id ∉ done) (hdone : ∀ x ∈ done, x ∈ a.liveIds)
    (hlength : parent.length = a.slotCount) :
    ∃ b', place a b id = .ok b' ∧ Owned a parent (done ++ [id]) b' := by
  have hlt := index_lt_of_mem_liveIds hid
  have hroot : (findRoot b.parent id.index).1 = rootOf parent id :=
    h.same.root _ (hlength.symm ▸ hlt)
  have hrlt : rootOf parent id < a.slotCount := by
    rw [← hroot]
    exact (h.same.descending.root_le id.index).trans_lt hlt
  have hcount : b.clusters.clusters.length = (keysOf (rootOf parent) done).length := by
    have hlen := congrArg List.length h.members
    simpa [membersOf, keysOf] using hlen
  have hcluster := h.cluster _ hrlt
  rw [← hroot] at hcluster
  obtain ⟨b', hplace, howner⟩ := @place_eq a id b _ (ho.free id hid hnew) hcluster
  rw [hroot] at howner
  have hother : ∀ x ∈ a.liveIds, x ≠ id →
      b'.clusters.owner[x.index]? = b.clusters.owner[x.index]? := by
    intro x hx hne
    rw [howner, List.getElem?_set_ne fun he => hne (eq_of_index hx hid he.symm)]
  refine ⟨b', hplace, by rw [howner, List.length_set, ho.length], fun x hx hout => ?_,
    fun x hx => ?_⟩
  · rw [List.mem_append, List.mem_singleton, not_or] at hout
    rw [hother x hx hout.2]
    exact ho.free x hx hout.1
  · rcases List.mem_append.mp hx with hx | hx
    · have hne : x ≠ id := fun he => hnew (he ▸ hx)
      rw [idxOf?_keysOf hx, ← ho.owned x hx, ClusterSet.clusterOf, hother x (hdone x hx) hne]
      rfl
    · obtain rfl := List.mem_singleton.mp hx
      rw [ClusterSet.clusterOf, howner, List.getElem?_set_self (ho.length.symm ▸ hlt)]
      rw [keysOf_append]
      split
      · next hmem =>
        obtain ⟨i, hi⟩ := Option.isSome_iff_exists.mp (List.isSome_idxOf?.mpr hmem)
        rw [hi]
        rfl
      · next hmem =>
        rw [idxOf?_concat hmem, if_pos rfl, List.idxOf?_eq_none_iff.mpr hmem, hcount]
        rfl

/-- Building succeeds, and owners are the groups of the roots. -/
theorem materialize_owned (h : Descending parent) (hlength : parent.length = a.slotCount)
    (hslots : a.slotCount ≤ 2 ^ 32) : ∃ cs, materialize a parent = .ok cs ∧
      ∀ x ∈ a.liveIds, cs.clusterOf x =
        ((keysOf (rootOf parent) a.liveIds).idxOf? (rootOf parent x)).map .ofNat := by
  -- From the state behind any first part of the live nodes.
  suffices hfrom : ∀ rest done b, done ++ rest = a.liveIds → Housed a parent done b →
      Owned a parent done b → ∃ b', rest.foldlM (place a) b = .ok b' ∧ Owned a parent a.liveIds b' by
    have hhoused : Housed a parent [] ⟨parent, .new a, List.replicate a.slotCount none⟩ :=
      ⟨.refl h, rfl, by simp, fun r hr => by simp [keysOf, groupsBy, hr]⟩
    have howned : Owned a parent [] ⟨parent, .new a, List.replicate a.slotCount none⟩ :=
      ⟨by simp [ClusterSet.new], fun x hx _ => by
        simp [ClusterSet.new, index_lt_of_mem_liveIds hx], fun x hx => absurd hx List.not_mem_nil⟩
    obtain ⟨b', hrun, hb'⟩ := hfrom a.liveIds [] _ rfl hhoused howned
    exact ⟨b'.clusters, map_ok.mpr ⟨b', hrun, rfl⟩, hb'.owned⟩
  intro rest
  induction rest with
  | nil =>
    intro done b hdone _ ho
    rw [List.append_nil] at hdone
    exact ⟨b, rfl, hdone ▸ ho⟩
  | cons id rest ih =>
    intro done b hdone hb ho
    have hmem : id ∈ a.liveIds := hdone ▸ by simp
    have hsorted := liveIds_sorted a
    rw [← hdone, List.pairwise_append] at hsorted
    have hlast : ∀ m ∈ done, m.index < id.index := fun m hm => hsorted.2.2 m hm id List.mem_cons_self
    have hnew : id ∉ done := fun hid => Nat.lt_irrefl _ (hlast id hid)
    have hlt : done.length < a.liveIds.length := by simp [← hdone]
    have hle := length_liveIds_le a
    obtain ⟨b₁, hplace, ho₁⟩ := place_owned hb ho hmem hnew
      (fun x hx => hdone ▸ List.mem_append_left _ hx) hlength
    have hb₁ := place_housed hb (index_lt_of_mem_liveIds hmem) hlength
      (fun m hm => (hlast m hm).le) (by omega) hplace
    obtain ⟨b', hrun, hb'⟩ := ih (done ++ [id]) b₁ (by simpa using hdone) hb₁ ho₁
    refine ⟨b', ?_, hb'⟩
    rw [List.foldlM_cons, hplace]
    exact hrun

/-- An edge between live nodes crosses where the roots differ. -/
theorem crosses_owned {cs : ClusterSet} (hslots : a.slotCount ≤ 2 ^ 32)
    (hcs : ∀ x ∈ a.liveIds, cs.clusterOf x =
      ((keysOf (rootOf parent) a.liveIds).idxOf? (rootOf parent x)).map .ofNat)
    (hx : x ∈ a.liveIds) (hy : y ∈ a.liveIds) :
    crosses cs.clusterOf (x, y) = decide (rootOf parent x ≠ rootOf parent y) := by
  obtain ⟨i, hi⟩ := Option.isSome_iff_exists.mp
    (List.isSome_idxOf?.mpr (@mem_keysOf x a.liveIds (rootOf parent) hx))
  obtain ⟨j, hj⟩ := Option.isSome_iff_exists.mp
    (List.isSome_idxOf?.mpr (@mem_keysOf y a.liveIds (rootOf parent) hy))
  have hkeys := (@length_keysOf_le a.liveIds (rootOf parent)).trans
    ((length_liveIds_le a).trans hslots)
  obtain ⟨hilt, higet, -⟩ := List.idxOf?_eq_some_iff.mp hi
  obtain ⟨hjlt, hjget, -⟩ := List.idxOf?_eq_some_iff.mp hj
  have hiff : UInt32.ofNat i = UInt32.ofNat j ↔ rootOf parent x = rootOf parent y := by
    constructor
    · intro he
      have hnat := congrArg UInt32.toNat he
      rw [toNat_index (by omega), toNat_index (by omega)] at hnat
      subst hnat
      exact higet.symm.trans hjget
    · intro he
      rw [he, hj] at hi
      rw [Option.some.inj hi]
  simp only [crosses, hcs x hx, hcs y hy, hi, hj, Option.map_some, ne_eq, hiff]

end Fusion

end Sxla
