import Sxla.Fusion.Search

/-!
# Joining

Which slots the uses join, said without a union find: each slot has a label,
at first its own number, and a use that may be fused gives two groups the
lower one of their labels unless they would be too many slots for the
universe. The roots that the search ends up with are these labels.
-/

namespace Sxla

namespace Fusion

open Forest

variable {a : IrArena} {u : Universe} {parent : List Nat} {label : Nat → Nat} {n x r : Nat}
  {g : Groups} {pair : NodeId × NodeId}

def groupSize (n : Nat) (label : Nat → Nat) (r : Nat) : Nat := (List.range n).countP (label · = r)

/-- The labels behind a use. -/
def joinLabels (a : IrArena) (u : Universe) (label : Nat → Nat) (pair : NodeId × NodeId) :
    Nat → Nat :=
  let p := label pair.1.index
  let c := label pair.2.index
  if skips a u pair.2 = false ∧ p ≠ c ∧
      groupSize a.slotCount label p + groupSize a.slotCount label c ≤ u.clusterCap then
    fun x => if label x = max p c then min p c else label x
  else label

/-- The label of each slot behind all uses that may be fused. -/
def fusedLabel (a : IrArena) (u : Universe) : Nat → Nat :=
  (candidates a).foldl (joinLabels a u) fun x => x

-- ---------------------------------------------------------------------------
-- Uses
-- ---------------------------------------------------------------------------

theorem index_lt_of_mem_liveIds {id : NodeId} (h : id ∈ a.liveIds) : id.index < a.slotCount := by
  obtain ⟨⟨id, n⟩, hn, rfl⟩ := List.mem_map.mp h
  exact IrArena.index_lt_of_node (IrArena.node_of_live hn)

theorem exists_node {id : NodeId} (h : id ∈ a.liveIds) : ∃ n, a.node id = .ok n := by
  obtain ⟨⟨id, n⟩, hn, rfl⟩ := List.mem_map.mp h
  exact ⟨n, IrArena.node_of_live hn⟩

theorem eq_of_index {x y : NodeId} (hx : x ∈ a.liveIds) (hy : y ∈ a.liveIds) (h : x.index = y.index) : x = y := by
  obtain ⟨⟨x, n⟩, hn, rfl⟩ := List.mem_map.mp hx
  obtain ⟨⟨y, n'⟩, hn', rfl⟩ := List.mem_map.mp hy
  exact (IrArena.live_unique hn hn' h).1

theorem mem_uses {edge : NodeId × NodeId} (h : edge ∈ uses a) :
    ∃ n, (edge.2, n) ∈ a.liveNodes ∧ ∃ v ∈ n.valueInputs, v.node = edge.1 := by
  obtain ⟨⟨id, n⟩, hn, hedge⟩ := List.mem_flatMap.mp h
  obtain ⟨v, hv, rfl⟩ := List.mem_map.mp hedge
  exact ⟨n, hn, v, hv, rfl⟩

theorem candidate_lt {pair : NodeId × NodeId} (h : pair ∈ candidates a) :
    pair.1.index < a.slotCount ∧ pair.2.index < a.slotCount := by
  obtain ⟨huse, hlegal⟩ := List.mem_filter.mp h
  obtain ⟨n, hn, -⟩ := mem_uses huse
  refine ⟨?_, IrArena.index_lt_of_node (IrArena.node_of_live hn)⟩
  cases hnode : a.node pair.1 with
  | ok p => exact IrArena.index_lt_of_node hnode
  | error e =>
    have hfuse : fusible a pair.1 pair.2 = true := hlegal
    rw [fusible, canFuse, hnode] at hfuse
    cases hfuse

-- ---------------------------------------------------------------------------
-- Joins
-- ---------------------------------------------------------------------------

theorem findRoot_spec (h : Descending parent) (hx : x < parent.length) :
    SameRoots parent (findRoot parent x).2 ∧ Flat (findRoot parent x).2 x ∧
      ∀ y, Flat parent y → Flat (findRoot parent x).2 y :=
  ⟨UnionFind.compress_sameRoots h hx, UnionFind.compress_flat h hx (Nat.le_refl x),
    fun _ hy => UnionFind.compress_keeps_flat h hx hy⟩

/-- A pair is passed over, or the higher of its roots gets the lower one for
its parent. -/
theorem join_cases (h : Descending g.parent) (hp : pair.1.index < g.parent.length)
    (hc : pair.2.index < g.parent.length) : ∃ parent, SameRoots g.parent parent ∧
      let rp := root g.parent pair.1.index
      let rc := root g.parent pair.2.index
      join a u g pair =
        if skips a u pair.2 = false ∧ rp ≠ rc ∧
            g.sizes.getD rp 0 + g.sizes.getD rc 0 ≤ u.clusterCap then
          { parent := parent.set (max rp rc) (min rp rc)
            sizes := (g.sizes.set (min rp rc) (g.sizes.getD rp 0 + g.sizes.getD rc 0)).set
              (max rp rc) 0 }
        else { g with parent } := by
  unfold join
  by_cases hskip : skips a u pair.2 = true
  · exact ⟨g.parent, .refl h, by simp [hskip]⟩
  obtain ⟨hfirst, -, -⟩ := findRoot_spec h hp
  obtain ⟨hsecond, -, -⟩ := findRoot_spec hfirst.descending (hfirst.length.symm ▸ hc)
  have hrp : (findRoot g.parent pair.1.index).1 = root g.parent pair.1.index := rfl
  have hrc : (findRoot (findRoot g.parent pair.1.index).2 pair.2.index).1 =
      root g.parent pair.2.index := hfirst.root _ hc
  refine ⟨_, hfirst.trans hsecond, ?_⟩
  simp only [hrp, hrc, if_neg hskip]
  by_cases heq : root g.parent pair.1.index = root g.parent pair.2.index
  · simp [heq]
  by_cases hcap : g.sizes.getD (root g.parent pair.1.index) 0 +
      g.sizes.getD (root g.parent pair.2.index) 0 > u.clusterCap
  · rw [if_neg heq, if_pos hcap, if_neg]
    rintro ⟨-, -, hle⟩
    exact Nat.not_lt.mpr hle hcap
  · rw [if_neg heq, if_neg hcap, if_pos ⟨by simpa using hskip, heq, Nat.not_lt.mp hcap⟩]

theorem singletons_descending (n : Nat) : Descending (Groups.singletons n).parent :=
  UnionFind.new_descending n

/-- The forest has the labels for its roots, and keeps their groups' sizes. -/
structure Labelled (n : Nat) (label : Nat → Nat) (g : Groups) : Prop where
  descending : Descending g.parent
  length : g.parent.length = n
  sizes : g.sizes.length = n
  root : ∀ x < n, root g.parent x = label x
  size : ∀ r < n, label r = r → g.sizes.getD r 0 = groupSize n label r

theorem Labelled.lt (h : Labelled n label g) (hx : x < n) : label x < n := by
  rw [← h.root x hx]
  exact Nat.lt_of_le_of_lt (h.descending.root_le x) hx

theorem Labelled.idem (h : Labelled n label g) (hx : x < n) : label (label x) = label x := by
  have hlt := h.lt hx
  rw [← h.root x hx] at hlt ⊢
  rw [← h.root _ hlt]
  exact h.descending.root_root (h.length.symm ▸ hx)

theorem labelled_singletons (n : Nat) : Labelled n (fun x => x) (.singletons n) where
  descending := singletons_descending n
  length := List.length_range
  sizes := List.length_replicate
  root x hx := by
    refine (singletons_descending n).root_self ?_
    simp [Groups.singletons, hx]
  size r hr _ := by
    have hcount : groupSize n (fun x => x) r = (List.range n).count r := by
      simp [groupSize, List.count, beq_eq_decide]
    rw [hcount, List.count_eq_one_of_mem List.nodup_range (List.mem_range.mpr hr)]
    simp [Groups.singletons, List.getD_eq_getElem?_getD, hr]

theorem groupSize_merge {w l : Nat} (hwl : w ≠ l) :
    groupSize n (fun x => if label x = l then w else label x) w =
      groupSize n label w + groupSize n label l := by
  unfold groupSize
  induction List.range n with
  | nil => rfl
  | cons x xs ih =>
    simp only [List.countP_cons, ih]
    grind

theorem groupSize_other {w l : Nat} (hr : r ≠ w) (hrl : r ≠ l) :
    groupSize n (fun x => if label x = l then w else label x) r = groupSize n label r := by
  unfold groupSize
  refine List.countP_congr fun x _ => ?_
  grind

/-- The higher of two labels gives way to the lower one. -/
theorem Labelled.link {w l s : Nat} (h : Labelled n label g) (hsame : SameRoots g.parent parent)
    (hwl : w < l) (hl : l < n) (hw : label w = w) (hll : label l = l)
    (hs : s = groupSize n label w + groupSize n label l) :
    Labelled n (fun x => if label x = l then w else label x)
      { parent := parent.set l w, sizes := (g.sizes.set w s).set l 0 } := by
  have hlength : parent.length = n := hsame.length.trans h.length
  have hroot : ∀ x < n, Forest.root parent x = label x := fun x hx =>
    (hsame.root x (h.length.symm ▸ hx)).trans (h.root x hx)
  have hentry : ∀ x < n, label x = x → parent[x]? = some x := fun x hx hlabel => by
    have hget := hsame.descending.getElem?_root (hlength.symm ▸ hx)
    rwa [hroot x hx, hlabel] at hget
  refine ⟨hsame.descending.set hwl.le, List.length_set.trans hlength, by simp [h.sizes],
    fun x hx => ?_, fun r hr hlabel => ?_⟩
  · rw [hsame.descending.root_link (hentry l hl hll) (hentry w (hwl.trans hl) hw) hwl.le
      (hlength.symm ▸ hx), hroot x hx]
  · have hrl : r ≠ l := by
      rintro rfl
      simp only [hll, if_true] at hlabel
      omega
    by_cases hrw : r = w
    · subst hrw
      rw [groupSize_merge hwl.ne, ← hs]
      simp [List.getD_eq_getElem?_getD, Ne.symm hrl, h.sizes, hr]
    · have hlabel : label r = r := by
        split at hlabel
        · exact absurd hlabel.symm hrw
        · exact hlabel
      rw [groupSize_other hrw hrl, ← h.size r hr hlabel]
      simp [List.getD_eq_getElem?_getD, Ne.symm hrl, Ne.symm hrw]

theorem join_labelled (h : Labelled a.slotCount label g) (hp : pair.1.index < a.slotCount)
    (hc : pair.2.index < a.slotCount) :
    Labelled a.slotCount (joinLabels a u label pair) (join a u g pair) := by
  obtain ⟨parent, hsame, hjoin⟩ := @join_cases a u g pair h.descending (h.length.symm ▸ hp)
    (h.length.symm ▸ hc)
  rw [hjoin, h.root _ hp, h.root _ hc, h.size _ (h.lt hp) (h.idem hp),
    h.size _ (h.lt hc) (h.idem hc), joinLabels]
  split
  · next hmerge =>
    obtain ⟨-, hne, -⟩ := hmerge
    rcases Nat.lt_or_gt_of_ne hne with hlt | hlt
    · rw [Nat.max_eq_right hlt.le, Nat.min_eq_left hlt.le]
      exact h.link hsame hlt (h.lt hc) (h.idem hp) (h.idem hc) rfl
    · rw [Nat.max_eq_left hlt.le, Nat.min_eq_right hlt.le]
      exact h.link hsame hlt (h.lt hp) (h.idem hc) (h.idem hp) (Nat.add_comm ..)
  · exact ⟨hsame.descending, hsame.length.trans h.length, h.sizes,
      fun x hx => (hsame.root x (h.length.symm ▸ hx)).trans (h.root x hx), h.size⟩

theorem joins_labelled {pairs : List (NodeId × NodeId)}
    (hpairs : ∀ pair ∈ pairs, pair ∈ candidates a) : Labelled a.slotCount
      (pairs.foldl (joinLabels a u) fun x => x) (pairs.foldl (join a u) (.singletons a.slotCount)) := by
  induction pairs using List.reverseRecOn with
  | nil => exact labelled_singletons _
  | append_singleton pairs pair ih =>
    obtain ⟨hp, hc⟩ := candidate_lt (hpairs pair (by simp))
    rw [List.foldl_append, List.foldl_append]
    exact join_labelled (ih fun p hm => hpairs p (by simp [hm])) hp hc

theorem joined_labelled (a : IrArena) (u : Universe) (pruned : Bool) :
    Labelled a.slotCount (if pruned then fun x => x else fusedLabel a u)
      ((if pruned then [] else candidates a).foldl (join a u) (.singletons a.slotCount)) := by
  cases pruned with
  | true => exact labelled_singletons _
  | false => exact joins_labelled fun _ h => h

end Fusion

end Sxla
