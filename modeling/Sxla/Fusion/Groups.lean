import Sxla.Fusion.SearchLaws

/-!
# Groups

Repair and building both visit the live nodes in slot order and put each of
them behind the others of its root. What comes out is one group for each
root, the live nodes with that root in slot order. The clusters that building
makes are these groups.
-/

namespace Sxla

namespace Fusion

open Checked Forest

variable {a : IrArena} {parent : List Nat} {live ids : List NodeId} {f : NodeId → Nat} {id : NodeId}
  {groups : List (Nat × List NodeId)} {r x : Nat}

/-- A group for each value of `f`, in the order of their first nodes. -/
def groupsBy (f : NodeId → Nat) (live : List NodeId) : List (Nat × List NodeId) :=
  live.foldl (fun groups id => insertGroup (f id) id groups) []

def rootOf (parent : List Nat) (id : NodeId) : Nat := root parent id.index

-- ---------------------------------------------------------------------------
-- One group for each root
-- ---------------------------------------------------------------------------

theorem insertGroup_map {keys : List Nat} {g : Nat → List NodeId} (hnd : keys.Nodup)
    (hnew : r ∉ keys → g r = []) :
    insertGroup r id (keys.map fun k => (k, g k)) =
      (if r ∈ keys then keys else keys ++ [r]).map fun k =>
        (k, if k = r then g k ++ [id] else g k) := by
  induction keys with
  | nil => simp [insertGroup, hnew]
  | cons k keys ih =>
    obtain ⟨hk, hnd⟩ := List.nodup_cons.mp hnd
    by_cases hkr : k = r
    · subst hkr
      have hrest : ∀ x ∈ keys, x ≠ k := fun x hx he => hk (he ▸ hx)
      simp only [List.map_cons, insertGroup, if_true, List.mem_cons, true_or, List.cons.injEq,
        true_and]
      exact List.map_congr_left fun x hx => by rw [if_neg (hrest x hx)]
    · have hih := ih hnd fun hr => hnew (by simp [hr, Ne.symm hkr])
      simp only [List.map_cons, insertGroup, hkr, if_false, hih, List.mem_cons, Ne.symm hkr,
        false_or]
      split <;> simp [hkr]

theorem insertGroup_keys : (insertGroup r id groups).map (·.1) =
    if r ∈ groups.map (·.1) then groups.map (·.1) else groups.map (·.1) ++ [r] := by
  induction groups with
  | nil => rfl
  | cons g groups ih =>
    obtain ⟨k, members⟩ := g
    by_cases hk : k = r
    · simp [insertGroup, hk]
    · simp only [insertGroup, hk, if_false, List.map_cons, ih, List.mem_cons, Ne.symm hk, false_or]
      split <;> rfl

/-- By the place of the root among the groups. -/
theorem insertGroup_eq : insertGroup r id groups =
    match (groups.map (·.1)).idxOf? r with
    | some i => groups.modify i fun g => (g.1, g.2 ++ [id])
    | none => groups ++ [(r, [id])] := by
  induction groups with
  | nil => rfl
  | cons g groups ih =>
    obtain ⟨k, members⟩ := g
    by_cases hk : k = r
    · simp [insertGroup, List.idxOf?_cons, hk]
    · simp only [insertGroup, List.map_cons, List.idxOf?_cons, hk, beq_iff_eq, if_false, ih]
      cases (groups.map (·.1)).idxOf? r <;> simp

theorem groupsBy_append : groupsBy f (live ++ [id]) = insertGroup (f id) id (groupsBy f live) := by
  simp [groupsBy]

/-- The roots in the order of their first nodes. -/
def keysOf (f : NodeId → Nat) (live : List NodeId) : List Nat := (groupsBy f live).map (·.1)

theorem keysOf_append : keysOf f (live ++ [id]) =
    if f id ∈ keysOf f live then keysOf f live else keysOf f live ++ [f id] := by
  rw [keysOf, groupsBy_append, insertGroup_keys]
  rfl

theorem groupsBy_spec : (keysOf f live).Nodup ∧ (∀ r, r ∈ keysOf f live ↔ ∃ id ∈ live, f id = r) ∧
    groupsBy f live = (keysOf f live).map fun r => (r, live.filter (f · = r)) := by
  induction live using List.reverseRecOn with
  | nil => simp [keysOf, groupsBy]
  | append_singleton live id ih =>
    obtain ⟨hnd, hmem, heq⟩ := ih
    have hnew : f id ∉ keysOf f live → live.filter (f · = f id) = [] := by
      intro hid
      rw [List.filter_eq_nil_iff]
      intro x hx
      simpa using fun hfx => hid ((hmem _).mpr ⟨x, hx, hfx⟩)
    have hgroups : groupsBy f (live ++ [id]) =
        (if f id ∈ keysOf f live then keysOf f live else keysOf f live ++ [f id]).map fun r =>
          (r, (live ++ [id]).filter (f · = r)) := by
      rw [groupsBy_append, heq, insertGroup_map hnd hnew]
      refine List.map_congr_left fun k _ => ?_
      by_cases hk : k = f id
      · simp [List.filter_append, hk]
      · simp [List.filter_append, hk, Ne.symm hk]
    rw [keysOf_append]
    refine ⟨?_, fun r => ?_, hgroups⟩
    · split
      · exact hnd
      · next hid =>
        refine List.nodup_append.mpr ⟨hnd, List.nodup_singleton _, fun x hx y hy hxy => ?_⟩
        exact hid (List.mem_singleton.mp hy ▸ hxy ▸ hx)
    · split
      · next hid =>
        rw [hmem]
        constructor
        · rintro ⟨x, hx, rfl⟩
          exact ⟨x, by simp [hx], rfl⟩
        · rintro ⟨x, hx, rfl⟩
          rcases List.mem_append.mp hx with hx | hx
          · exact ⟨x, hx, rfl⟩
          · obtain rfl := List.mem_singleton.mp hx
            exact (hmem _).mp hid
      · simp only [List.mem_append, List.mem_singleton, hmem]
        grind

theorem mem_groupsBy {ms : List NodeId} :
    (r, ms) ∈ groupsBy f live ↔ ms = live.filter (f · = r) ∧ ms ≠ [] := by
  obtain ⟨_, hmem, heq⟩ := @groupsBy_spec live f
  rw [heq]
  simp only [List.mem_map, Prod.mk.injEq]
  constructor
  · rintro ⟨k, hk, rfl, rfl⟩
    obtain ⟨id, hid, hf⟩ := (hmem k).mp hk
    exact ⟨rfl, List.ne_nil_of_mem (List.mem_filter.mpr ⟨hid, by simpa using hf⟩)⟩
  · rintro ⟨rfl, hne⟩
    obtain ⟨id, hid⟩ := List.exists_mem_of_ne_nil _ hne
    obtain ⟨hid, hf⟩ := List.mem_filter.mp hid
    exact ⟨r, (hmem r).mpr ⟨id, hid, by simpa using hf⟩, rfl, rfl⟩

/-- Compression on the way does not change what the roots are. -/
theorem groupLive_groups (h : Descending parent) (hlive : ∀ id ∈ live, id.index < parent.length) :
    (groupLive live parent).2 = groupsBy (rootOf parent) live := by
  suffices hfrom : ∀ groups p, SameRoots parent p →
      (live.foldl groupStep (p, groups)).2 =
        live.foldl (fun groups id => insertGroup (rootOf parent id) id groups) groups from
    hfrom [] parent (.refl h)
  induction live with
  | nil => exact fun _ _ _ => rfl
  | cons id live ih =>
    intro groups p hsame
    have hid := hlive id List.mem_cons_self
    obtain ⟨hnext, -, -⟩ := findRoot_spec hsame.descending (hsame.length.symm ▸ hid)
    have hroot : (findRoot p id.index).1 = rootOf parent id := hsame.root _ hid
    rw [List.foldl_cons, groupStep, hroot]
    exact ih (fun x hx => hlive x (List.mem_cons_of_mem _ hx)) _ _ (hsame.trans hnext)

theorem liveIds_sorted (a : IrArena) : a.liveIds.Pairwise (·.index < ·.index) := by
  rw [← List.pairwise_map, IrArena.map_index_liveIds]
  exact List.pairwise_lt_range.filter _

theorem length_liveIds_le (a : IrArena) : a.liveIds.length ≤ a.slotCount := by
  rw [← List.length_map (·.index), IrArena.map_index_liveIds]
  exact (List.length_filter_le _ _).trans (by simp [IrArena.slotCount])

-- ---------------------------------------------------------------------------
-- Clusters
-- ---------------------------------------------------------------------------

theorem insertMember_last {members : List NodeId} (h : ∀ m ∈ members, m.index ≤ id.index) :
    ClusterSet.insertMember id members = members ++ [id] := by
  induction members with
  | nil => rfl
  | cons m members ih =>
    have hm := h m List.mem_cons_self
    rw [ClusterSet.insertMember, if_neg (by omega), ih fun x hx => h x (List.mem_cons_of_mem _ hx)]
    rfl

def membersOf (cs : ClusterSet) : List (List NodeId) := cs.clusters.map (·.members)

theorem assign_members {cs cs' : ClusterSet} {index : UInt32} (h : cs.assign index id = .ok cs')
    (hlast : ∀ ms ∈ membersOf cs, ∀ m ∈ ms, m.index ≤ id.index) :
    membersOf cs' = (membersOf cs).modify index.toNat (· ++ [id]) := by
  unfold ClusterSet.assign at h
  split at h
  · cases h
  · cases h
  · cases h
    refine List.ext_getElem? fun i => ?_
    simp only [membersOf, List.getElem?_map, List.getElem?_modify]
    cases hc : cs.clusters[i]? with
    | none => rfl
    | some c =>
      have hmem := hlast c.members (List.mem_map_of_mem (List.mem_of_getElem? hc))
      by_cases hi : index.toNat = i <;> simp [hi, insertMember_last hmem]

/-- The state behind the nodes placed so far. -/
structure Housed (a : IrArena) (parent : List Nat) (done : List NodeId) (b : Building) : Prop where
  same : SameRoots parent b.parent
  members : membersOf b.clusters = (groupsBy (rootOf parent) done).map (·.2)
  size : b.rootCluster.length = a.slotCount
  cluster : ∀ r < a.slotCount, (b.rootCluster[r]?).join =
    ((keysOf (rootOf parent) done).idxOf? r).map .ofNat

theorem length_keysOf_le : (keysOf f live).length ≤ live.length := by
  induction live using List.reverseRecOn with
  | nil => simp [keysOf, groupsBy]
  | append_singleton live id ih =>
    rw [keysOf_append]
    split <;> simp only [List.length_append, List.length_singleton] <;> omega

theorem place_ok {b b' : Building} (h : place a b id = .ok b') :
    b'.parent = (findRoot b.parent id.index).2 ∧
      ((∃ c, (b.rootCluster[(findRoot b.parent id.index).1]?).join = some c ∧
        b'.rootCluster = b.rootCluster ∧ b.clusters.assign c id = .ok b'.clusters) ∨
      (b.rootCluster[(findRoot b.parent id.index).1]?).join = none ∧
        b'.rootCluster = b.rootCluster.set (findRoot b.parent id.index).1
          (some (.ofNat b.clusters.clusters.length)) ∧
        ∃ shared registers, (b.clusters.addCluster shared registers).2.assign
          (.ofNat b.clusters.clusters.length) id = .ok b'.clusters) := by
  simp only [place] at h
  cases hc : (b.rootCluster[(findRoot b.parent id.index).1]?).join with
  | some c =>
    simp only [hc] at h
    split at h
    · next clusters hassign =>
      cases h
      exact ⟨rfl, .inl ⟨c, rfl, rfl, hassign⟩⟩
    · cases h
  | none =>
    simp only [hc] at h
    split at h
    · next clusters hassign =>
      cases h
      exact ⟨rfl, .inr ⟨rfl, rfl, _, _, hassign⟩⟩
    · cases h

theorem toNat_index {i : Nat} (h : i < 2 ^ 32) : (UInt32.ofNat i).toNat = i :=
  UInt32.toNat_ofNat_of_lt' h

theorem map_members_modify (groups : List (Nat × List NodeId)) (i : Nat) :
    (groups.modify i fun g => (g.1, g.2 ++ [id])).map (·.2) =
      (groups.map (·.2)).modify i (· ++ [id]) := by
  refine List.ext_getElem? fun j => ?_
  simp only [List.getElem?_map, List.getElem?_modify]
  cases groups[j]? with
  | none => rfl
  | some g => by_cases hj : i = j <;> simp [hj]

theorem modify_concat (l : List (List NodeId)) :
    (l ++ [[]]).modify l.length (· ++ [id]) = l ++ [[id]] := by
  induction l with
  | nil => rfl
  | cons ms l ih => simpa using ih

theorem idxOf?_concat {keys : List Nat} (h : r ∉ keys) :
    (keys ++ [r]).idxOf? x = if x = r then some keys.length else keys.idxOf? x := by
  by_cases hx : x = r
  · subst hx
    induction keys with
    | nil => simp
    | cons k keys ih =>
      have hk : k ≠ x := fun he => h (by simp [he])
      have hih := ih fun hm => h (List.mem_cons_of_mem _ hm)
      simp only [if_true] at hih
      simp [List.idxOf?_cons, hk, hih]
  · induction keys with
    | nil => simp [List.idxOf?_cons, hx, Ne.symm hx]
    | cons k keys ih =>
      have hih := ih fun hm => h (List.mem_cons_of_mem _ hm)
      simp only [if_neg hx] at hih ⊢
      simp [List.idxOf?_cons, hih]

theorem place_housed {b b' : Building} {done : List NodeId} (h : Housed a parent done b)
    (hid : id.index < a.slotCount) (hlength : parent.length = a.slotCount)
    (hlast : ∀ m ∈ done, m.index ≤ id.index) (hfew : done.length < 2 ^ 32)
    (hplace : place a b id = .ok b') : Housed a parent (done ++ [id]) b' := by
  have hidp : id.index < parent.length := hlength.symm ▸ hid
  obtain ⟨hnext, -, -⟩ := findRoot_spec h.same.descending (h.same.length.symm ▸ hidp)
  have hroot : (findRoot b.parent id.index).1 = rootOf parent id := h.same.root _ hidp
  have hrlt : rootOf parent id < a.slotCount := by
    have hle := h.same.descending.root_le id.index
    rw [← hroot]
    exact Nat.lt_of_le_of_lt hle hid
  have hkeys := @length_keysOf_le done (rootOf parent)
  have hmembers : ∀ ms ∈ membersOf b.clusters, ∀ m ∈ ms, m.index ≤ id.index := by
    intro ms hms m hm
    rw [h.members] at hms
    obtain ⟨⟨r, ms⟩, hgroup, rfl⟩ := List.mem_map.mp hms
    rw [(mem_groupsBy.mp hgroup).1] at hm
    exact hlast m (List.mem_filter.mp hm).1
  obtain ⟨hparent, hcase⟩ := place_ok hplace
  rw [hroot, h.cluster _ hrlt] at hcase
  have hsame : SameRoots parent b'.parent := hparent ▸ h.same.trans hnext
  rcases hcase with ⟨c, hc, hrc, hassign⟩ | ⟨hnone, hrc, shared, registers, hassign⟩
  · obtain ⟨i, hi, rfl⟩ := Option.map_eq_some_iff.mp hc
    have hilt : i < (keysOf (rootOf parent) done).length :=
      (List.idxOf?_eq_some_iff.mp hi).choose
    have hmem : rootOf parent id ∈ keysOf (rootOf parent) done := by
      rw [← List.isSome_idxOf?, hi]
      rfl
    refine ⟨hsame, ?_, hrc ▸ h.size, ?_⟩
    · rw [assign_members hassign hmembers, h.members, toNat_index (by omega), groupsBy_append,
        insertGroup_eq, show (groupsBy (rootOf parent) done).map (·.1) = keysOf _ _ from rfl, hi]
      exact (map_members_modify _ _).symm
    · rw [keysOf_append, if_pos hmem, hrc]
      exact h.cluster
  · have hidx : (keysOf (rootOf parent) done).idxOf? (rootOf parent id) = none :=
      Option.map_eq_none_iff.mp hnone
    have hnew := List.idxOf?_eq_none_iff.mp hidx
    have hcount : b.clusters.clusters.length = (keysOf (rootOf parent) done).length := by
      have hlen := congrArg List.length h.members
      simpa [membersOf, keysOf] using hlen
    have hadded : membersOf (b.clusters.addCluster shared registers).2 =
        membersOf b.clusters ++ [[]] := by simp [membersOf, ClusterSet.addCluster]
    refine ⟨hsame, ?_, ?_, fun r hr => ?_⟩
    · rw [assign_members hassign (by
        rw [hadded]
        intro ms hms
        rcases List.mem_append.mp hms with hms | hms
        · exact hmembers ms hms
        · simp [List.mem_singleton.mp hms]), hadded, toNat_index (by omega), groupsBy_append,
        insertGroup_eq, show (groupsBy (rootOf parent) done).map (·.1) = keysOf _ _ from rfl, hidx,
        List.map_append, ← h.members, ← List.length_map (·.members), ← membersOf]
      exact modify_concat _
    · rw [hrc, List.length_set, h.size]
    · rw [keysOf_append, if_neg hnew, hrc, idxOf?_concat hnew, hcount]
      by_cases hrid : r = rootOf parent id
      · subst hrid
        simp [List.getElem?_set_self (h.size.symm ▸ hr)]
      · rw [List.getElem?_set_ne (Ne.symm hrid), h.cluster r hr, if_neg hrid]

/-- The clusters are the groups of the live nodes. -/
theorem materialize_members {cs : ClusterSet} (h : Descending parent)
    (hlength : parent.length = a.slotCount) (hslots : a.slotCount ≤ 2 ^ 32)
    (hcs : materialize a parent = .ok cs) :
    membersOf cs = (groupsBy (rootOf parent) a.liveIds).map (·.2) := by
  -- From the state behind any first part of the live nodes.
  suffices hfrom : ∀ rest done b b', done ++ rest = a.liveIds → Housed a parent done b →
      rest.foldlM (place a) b = .ok b' → Housed a parent a.liveIds b' by
    obtain ⟨b', hb', rfl⟩ := map_ok.mp hcs
    refine (hfrom a.liveIds [] _ b' rfl ⟨.refl h, rfl, by simp, fun r hr => ?_⟩ hb').members
    simp [keysOf, groupsBy, hr]
  intro rest
  induction rest with
  | nil =>
    intro done b b' hdone hb hrun
    cases hrun
    rwa [← hdone, List.append_nil]
  | cons id rest ih =>
    intro done b b' hdone hb hrun
    rw [List.foldlM_cons] at hrun
    obtain ⟨b₁, hplace, hrun⟩ := bind_ok.mp hrun
    have hmem : id ∈ a.liveIds := hdone ▸ by simp
    have hsorted := liveIds_sorted a
    rw [← hdone, List.pairwise_append] at hsorted
    have hlt : done.length < a.liveIds.length := by simp [← hdone]
    have hle := length_liveIds_le a
    exact ih (done ++ [id]) b₁ b' (by simpa using hdone)
      (place_housed hb (index_lt_of_mem_liveIds hmem) hlength
        (fun m hm => Nat.le_of_lt (hsorted.2.2 m hm id List.mem_cons_self)) (by omega) hplace) hrun

end Fusion

end Sxla
