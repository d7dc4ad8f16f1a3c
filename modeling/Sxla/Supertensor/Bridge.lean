import Sxla.Fusion.Groups
import Sxla.Graph.ScheduleLaws
import Sxla.Supertensor.Soundness
import Sxla.Supertensor.Traffic

/-!
# The bridge

The winner's fused pairs are joined by a union find, whose trees then become
the clusters. So two nodes share a cluster exactly when the pairs connect
them, and a node of no pair has none. A target that is not scheduled itself
is attached to the group of its producer.
-/

namespace Sxla

open Checked SchedulePolytope Forest
open Fusion (rootOf)

variable {a : IrArena} {poly : SchedulePolytope} {winner : List PackedOpSched} {hw : HardwareModel}
  {parent : List Nat} {pairs : List (NodeId × NodeId)} {id x y : NodeId} {r : Nat}

namespace Bridge

/-- A chain of pairs leads from the one to the other. -/
def Connected (pairs : List (NodeId × NodeId)) : NodeId → NodeId → Prop :=
  Relation.EqvGen fun x y => (x, y) ∈ pairs

-- ---------------------------------------------------------------------------
-- Roots
-- ---------------------------------------------------------------------------

/-- Path halving moves no root. -/
theorem halve_sameRoots {i : Nat} (h : Descending parent) (hi : i < parent.length) :
    SameRoots parent (parent.set i (parent.getD (parent.getD i i) (parent.getD i i))) ∧
      root parent (parent.getD (parent.getD i i) (parent.getD i i)) = root parent i := by
  have hentry : ∀ j < parent.length, parent[j]? = some (parent.getD j j) ∧
      root parent (parent.getD j j) = root parent j := by
    intro j hj
    have hget : parent[j]? = some (parent.getD j j) := by
      simp [List.getD_eq_getElem?_getD, List.getElem?_eq_getElem hj]
    refine ⟨hget, ?_⟩
    rw [h.root_of_entry hget]
    split
    · next heq =>
      rw [heq] at hget ⊢
      exact h.root_self hget
    · rfl
  have hp := h.getD_le i
  have hg := h.getD_le (parent.getD i i)
  obtain ⟨hget, hroot⟩ := hentry i hi
  obtain ⟨hget', hroot'⟩ := hentry (parent.getD i i) (by omega)
  generalize parent.getD i i = p at *
  generalize parent.getD p p = q at *
  refine ⟨⟨h.set (by omega), List.length_set, fun x hx =>
    h.root_shortcut (by omega) (hroot'.trans hroot) (fun heq => ?_) hx⟩, hroot'.trans hroot⟩
  obtain rfl : p = i := by omega
  exact hget

theorem findFrom_spec {fuel i : Nat} (h : Descending parent) (hi : i < parent.length)
    (hf : i < fuel) : SameRoots parent (findFrom fuel parent i).1 ∧
      (findFrom fuel parent i).2 = root parent i := by
  induction fuel generalizing parent i with
  | zero => omega
  | succ fuel ih =>
    rw [findFrom]
    by_cases heq : parent.getD i i = i
    · rw [if_pos heq]
      have hget : parent[i]? = some i := by
        rw [List.getD_eq_getElem?_getD, List.getElem?_eq_getElem hi, Option.getD_some] at heq
        rw [List.getElem?_eq_getElem hi, heq]
      exact ⟨.refl h, (h.root_self hget).symm⟩
    · rw [if_neg heq]
      obtain ⟨hsame, hroot⟩ := halve_sameRoots h hi
      have hp := h.getD_le i
      have hg := h.getD_le (parent.getD i i)
      obtain ⟨hrest, hfound⟩ := @ih (parent.set i (parent.getD (parent.getD i i)
        (parent.getD i i))) (parent.getD (parent.getD i i) (parent.getD i i)) hsame.descending
        (by rw [hsame.length]; omega) (by omega)
      refine ⟨hsame.trans hrest, hfound.trans ?_⟩
      rw [hsame.root _ (by omega), hroot]

theorem find_spec {i : Nat} (h : Descending parent) (hi : i < parent.length) :
    SameRoots parent (find parent i).1 ∧ (find parent i).2 = root parent i :=
  findFrom_spec h hi (Nat.lt_succ_self i)

/-- The trees are the components of the pairs, as far as live nodes go. -/
structure Spans (a : IrArena) (pairs : List (NodeId × NodeId)) (parent : List Nat) : Prop where
  descending : Descending parent
  length : parent.length = a.slotCount
  live : ∀ e ∈ pairs, e.1 ∈ a.liveIds ∧ e.2 ∈ a.liveIds
  linked : ∀ e ∈ pairs, rootOf parent e.1 = rootOf parent e.2
  reached : ∀ x ∈ a.liveIds, ∃ t ∈ a.liveIds, t.index = rootOf parent x ∧ Connected pairs x t

theorem Connected.mono {more : List (NodeId × NodeId)} (h : Connected pairs x y)
    (hsub : ∀ e ∈ pairs, e ∈ more) : Connected more x y :=
  Relation.EqvGen.mono (fun x y he => hsub (x, y) he) x y h

theorem Spans.root_eq (h : Spans a pairs parent) (hxy : Connected pairs x y) :
    rootOf parent x = rootOf parent y := by
  induction hxy with
  | rel x y he => exact h.linked _ he
  | refl x => rfl
  | symm x y _ ih => exact ih.symm
  | trans x y z _ _ ih ih' => exact ih.trans ih'

theorem Spans.root_iff (h : Spans a pairs parent) (hx : x ∈ a.liveIds) (hy : y ∈ a.liveIds) :
    rootOf parent x = rootOf parent y ↔ Connected pairs x y := by
  refine ⟨fun heq => ?_, h.root_eq⟩
  obtain ⟨t, ht, htx, hxt⟩ := h.reached x hx
  obtain ⟨t', ht', hty, hyt⟩ := h.reached y hy
  obtain rfl := Fusion.eq_of_index ht ht' (htx.trans (heq.trans hty.symm))
  exact .trans _ _ _ hxt (.symm _ _ hyt)

theorem range_spans (a : IrArena) : Spans a [] (List.range a.slotCount) where
  descending := Fusion.singletons_descending _
  length := List.length_range
  live := by simp
  linked := by simp
  reached x hx := by
    refine ⟨x, hx, ?_, .refl x⟩
    refine ((Fusion.singletons_descending a.slotCount).root_self ?_).symm
    simp [Fusion.Groups.singletons, Fusion.index_lt_of_mem_liveIds hx]

/-- A link makes one tree of two. -/
theorem link_roots {pair : NodeId × NodeId} (h : Descending parent)
    (hp : pair.1.index < parent.length) (hc : pair.2.index < parent.length) :
    Descending (link parent pair) ∧ (link parent pair).length = parent.length ∧
      ∀ x : NodeId, x.index < parent.length → rootOf (link parent pair) x =
        if rootOf parent x = max (rootOf parent pair.2) (rootOf parent pair.1) then
          min (rootOf parent pair.1) (rootOf parent pair.2)
        else rootOf parent x := by
  obtain ⟨hfirst, hrp⟩ := find_spec h hp
  obtain ⟨hsecond, hrc⟩ := find_spec hfirst.descending (hfirst.length.symm ▸ hc)
  rw [hfirst.root _ hc] at hrc
  have hsame := hfirst.trans hsecond
  have hlink : link parent pair =
      if rootOf parent pair.1 ≠ rootOf parent pair.2 then
        (find (find parent pair.1.index).1 pair.2.index).1.set
          (max (rootOf parent pair.2) (rootOf parent pair.1))
          (min (rootOf parent pair.1) (rootOf parent pair.2))
      else (find (find parent pair.1.index).1 pair.2.index).1 := by
    simp only [link, hrp, hrc]
    rfl
  generalize (find (find parent pair.1.index).1 pair.2.index).1 = q at hsame hlink
  have hroot : ∀ x : NodeId, x.index < parent.length → rootOf q x = rootOf parent x :=
    fun x hx => hsame.root _ hx
  have hentry : ∀ x : NodeId, x.index < parent.length →
      q[rootOf parent x]? = some (rootOf parent x) := fun x hx => by
    rw [← hroot x hx]
    exact hsame.descending.getElem?_root (hsame.length.symm ▸ hx)
  rw [hlink]
  split
  · have hmax : q[max (rootOf parent pair.2) (rootOf parent pair.1)]? =
        some (max (rootOf parent pair.2) (rootOf parent pair.1)) := by
      rcases Nat.le_total (rootOf parent pair.1) (rootOf parent pair.2) with hle | hle
      · rw [Nat.max_eq_left hle]
        exact hentry _ hc
      · rw [Nat.max_eq_right hle]
        exact hentry _ hp
    have hmin : q[min (rootOf parent pair.1) (rootOf parent pair.2)]? =
        some (min (rootOf parent pair.1) (rootOf parent pair.2)) := by
      rcases Nat.le_total (rootOf parent pair.1) (rootOf parent pair.2) with hle | hle
      · rw [Nat.min_eq_left hle]
        exact hentry _ hp
      · rw [Nat.min_eq_right hle]
        exact hentry _ hc
    refine ⟨hsame.descending.set (by omega), List.length_set.trans hsame.length, fun x hx => ?_⟩
    rw [← hroot x hx]
    exact hsame.descending.root_link hmax hmin (by omega) (hsame.length.symm ▸ hx)
  · next heq =>
    refine ⟨hsame.descending, hsame.length, fun x hx => ?_⟩
    rw [hroot x hx]
    split <;> omega

theorem link_spans {pair : NodeId × NodeId} (h : Spans a pairs parent) (hp : pair.1 ∈ a.liveIds)
    (hc : pair.2 ∈ a.liveIds) : Spans a (pairs ++ [pair]) (link parent pair) := by
  have hlt : ∀ {x}, x ∈ a.liveIds → x.index < parent.length := fun hx =>
    h.length.symm ▸ Fusion.index_lt_of_mem_liveIds hx
  obtain ⟨hdesc, hlength, hroots⟩ := link_roots h.descending (hlt hp) (hlt hc)
  refine ⟨hdesc, hlength.trans h.length, ?_, fun e he => ?_, fun x hx => ?_⟩
  · simpa [or_imp, forall_and, hp, hc] using h.live
  · rcases List.mem_append.mp he with he | he
    · obtain ⟨hl, hr⟩ := h.live e he
      rw [hroots _ (hlt hl), hroots _ (hlt hr), h.linked e he]
    · obtain rfl := List.mem_singleton.mp he
      rw [hroots _ (hlt hp), hroots _ (hlt hc)]
      split <;> split <;> omega
  · obtain ⟨t, ht, htx, hxt⟩ := h.reached x hx
    obtain ⟨tp, htp, hpi, hptp⟩ := h.reached _ hp
    obtain ⟨tc, htc, hci, hctc⟩ := h.reached _ hc
    have hsub : ∀ e ∈ pairs, e ∈ pairs ++ [pair] := fun e he => List.mem_append_left _ he
    have hpc : Connected (pairs ++ [pair]) pair.1 pair.2 := .rel _ _ (by simp)
    rw [hroots x (hlt hx)]
    split
    · next hmax =>
      rcases Nat.le_total (rootOf parent pair.1) (rootOf parent pair.2) with hle | hle
      · obtain rfl := Fusion.eq_of_index ht htc (by omega)
        refine ⟨tp, htp, by omega, .trans _ _ _ (hxt.mono hsub) (.trans _ _ _ ?_ (hptp.mono hsub))⟩
        exact .trans _ _ _ (.symm _ _ (hctc.mono hsub)) (.symm _ _ hpc)
      · obtain rfl := Fusion.eq_of_index ht htp (by omega)
        refine ⟨tc, htc, by omega, .trans _ _ _ (hxt.mono hsub) (.trans _ _ _ ?_ (hctc.mono hsub))⟩
        exact .trans _ _ _ (.symm _ _ (hptp.mono hsub)) hpc
    · exact ⟨t, ht, htx, hxt.mono hsub⟩

theorem fusedPairs_spans (hpairs : ∀ e ∈ pairs, e.1 ∈ a.liveIds ∧ e.2 ∈ a.liveIds) :
    Spans a pairs (pairs.foldl link (List.range a.slotCount)) := by
  induction pairs using List.reverseRecOn with
  | nil => exact range_spans a
  | append_singleton pairs pair ih =>
    have hlast := hpairs pair (by simp)
    rw [List.foldl_append]
    exact link_spans (ih fun e he => hpairs e (List.mem_append_left _ he)) hlast.1 hlast.2

-- ---------------------------------------------------------------------------
-- Pairs
-- ---------------------------------------------------------------------------

def opsOf (poly : SchedulePolytope) : List NodeId := poly.opBounds.map (·.opId)

/-- The ops and the fusion targets of the polytope are live nodes. -/
structure Drawn (a : IrArena) (poly : SchedulePolytope) : Prop where
  nodup : (opsOf poly).Nodup
  ops : ∀ b ∈ poly.opBounds, b.opId ∈ a.liveIds
  targets : ∀ b ∈ poly.opBounds, ∀ c ∈ b.validFuse, c ∈ a.liveIds

theorem collectTensorOps_sublist : ((Wpa.collectTensorOps a).map (·.opId)).Sublist a.liveIds := by
  unfold Wpa.collectTensorOps IrArena.liveIds
  induction a.liveNodes with
  | nil => exact .slnil
  | cons e l ih =>
    obtain ⟨id, n⟩ := e
    cases hs : Wpa.scheduleable n with
    | none =>
      rw [List.filterMap_cons_none (by simp only [hs, Option.map_none])]
      exact ih.cons _
    | some t =>
      rw [List.filterMap_cons_some (by simp only [hs, Option.map_some]; rfl)]
      exact ih.cons_cons _

theorem extractPolytope_drawn (a : IrArena) (hw : HardwareModel) :
    Drawn a (extractPolytope a hw) := by
  have hops : opsOf (extractPolytope a hw) = (Wpa.collectTensorOps a).map (·.opId) := by
    simp [opsOf, extractPolytope, Wpa.emitOpBounds, Function.comp_def]
  have hsub := @collectTensorOps_sublist a
  refine ⟨hops ▸ hsub.nodup (IrArena.liveIds_nodup a), fun b hb => ?_, fun b hb c hc => ?_⟩
  · exact hsub.subset (hops ▸ List.mem_map_of_mem hb)
  · obtain ⟨info, hinfo, rfl⟩ := List.mem_map.mp hb
    obtain ⟨⟨id, n⟩, _, hcollect⟩ := List.mem_filterMap.mp hinfo
    obtain ⟨t, _, rfl⟩ := Option.map_eq_some_iff.mp hcollect
    obtain ⟨⟨c', n'⟩, hn', hc'⟩ := List.mem_flatMap.mp (List.mem_filter.mp hc).1
    obtain ⟨v, _, rfl⟩ := List.mem_map.mp hc'
    exact List.mem_map_of_mem hn'

theorem Drawn.truncate (h : Drawn a poly) : Drawn a (truncatePolytope poly) := by
  unfold truncatePolytope
  split
  · exact h
  · have hmem : ∀ b ∈ poly.dominantOps.filterMap (poly.opBounds[·]?), b ∈ poly.opBounds := by
      intro b hb
      obtain ⟨k, _, hk⟩ := List.mem_filterMap.mp hb
      exact List.mem_of_getElem? hk
    refine ⟨?_, fun b hb => h.ops b (hmem b hb), fun b hb => h.targets b (hmem b hb)⟩
    have hkeep : poly.dominantOps.Nodup := by
      unfold dominantOps
      rw [(List.mergeSort_perm _ _).nodup_iff]
      refine ((List.take_sublist _ _).nodup ?_)
      rw [(List.mergeSort_perm _ _).nodup_iff]
      exact List.nodup_range
    rw [opsOf, List.map_filterMap]
    refine hkeep.filterMap fun k k' id hk hk' => ?_
    simp only [Option.mem_def, Option.map_eq_some_iff] at hk hk'
    obtain ⟨b, hb, rfl⟩ := hk
    obtain ⟨b', hb', hid⟩ := hk'
    have hget : (opsOf poly)[k]? = some b.opId := by simp [opsOf, hb]
    have hget' : (opsOf poly)[k']? = some b.opId := by simp [opsOf, hb', hid]
    exact (List.getElem?_inj (List.getElem?_eq_some_iff.mp hget).1 h.nodup).mp
      (hget.trans hget'.symm)

theorem withinBounds_of_verify (h : verifyCandidate a poly winner = .ok ()) :
    poly.WithinBounds winner := by
  simp only [verifyCandidate, bind_ok, mapError_ok] at h
  obtain ⟨_, hfull, -⟩ := h
  unfold checkFull at hfull
  by_cases hlen : winner.length = poly.opBounds.length
  · rw [if_pos hlen] at hfull
    obtain ⟨_, hops, -⟩ := bind_ok.mp hfull
    exact ⟨hlen, hops⟩
  · rw [if_neg hlen] at hfull
    cases hfull

/-- The winner fuses ops of the polytope into live nodes. -/
theorem fusedPairs_drawn (hd : Drawn a poly) (hw : poly.WithinBounds winner) :
    ∀ e ∈ fusedPairs winner, e.1 ∈ opsOf poly ∧ e.1 ∈ a.liveIds ∧ e.2 ∈ a.liveIds := by
  intro e he
  obtain ⟨s, hs, rfl⟩ := List.mem_map.mp he
  obtain ⟨hs, hfused⟩ := List.mem_filter.mp hs
  obtain ⟨i, hi⟩ := List.mem_iff_getElem?.mp hs
  have hlt : i < poly.opBounds.length := by
    have hlength : winner.length = poly.opBounds.length := hw.length
    rw [← hlength]
    exact (List.getElem?_eq_some_iff.mp hi).1
  have hb := List.getElem?_eq_getElem hlt
  obtain ⟨hid, -, -, -, hfuse⟩ := checkOp_ok_iff.mp (hw.checkOp hb hi)
  have hmem := List.mem_of_getElem? hb
  rw [OpBounds.fuseAllowed, hfused] at hfuse
  rw [hid]
  exact ⟨List.mem_map_of_mem hmem, hd.ops _ hmem, hd.targets _ hmem _ (by simpa using hfuse)⟩

-- ---------------------------------------------------------------------------
-- Groups
-- ---------------------------------------------------------------------------

theorem addMember_eq {groups : List (Nat × List NodeId)} :
    addMember r id groups = Fusion.insertGroup r id groups := by
  induction groups with
  | nil => rfl
  | cons g groups ih => simp only [addMember, Fusion.insertGroup, ih]

/-- The target of a pair goes behind the members, unless it is one. -/
def withTarget (id : NodeId) (members : List NodeId) : List NodeId :=
  if members.contains id then members else members ++ [id]

theorem mem_withTarget {members : List NodeId} : x ∈ withTarget id members ↔ x ∈ members ∨ x = id := by
  unfold withTarget
  split
  · next hid =>
    have hid : id ∈ members := by simpa using hid
    constructor
    · exact .inl
    · rintro (hx | rfl)
      · exact hx
      · exact hid
  · simp

theorem withTarget_nodup {members : List NodeId} (h : members.Nodup) :
    (withTarget id members).Nodup := by
  unfold withTarget
  split
  · exact h
  · next hid =>
    refine List.nodup_append.mpr ⟨h, List.nodup_singleton _, fun x hx y hy hxy => hid ?_⟩
    obtain rfl := List.mem_singleton.mp hy
    simpa [hxy] using hx

theorem attach_eq {groups : List (Nat × List NodeId)} (h : (groups.map (·.1)).Nodup) :
    attach r id groups = groups.map fun g => (g.1, if g.1 = r then withTarget id g.2 else g.2) := by
  induction groups with
  | nil => rfl
  | cons g groups ih =>
    obtain ⟨k, members⟩ := g
    obtain ⟨hk, hnd⟩ := List.nodup_cons.mp h
    simp only [attach, List.map_cons]
    split
    · next heq =>
      subst heq
      have hrest : groups.map (fun g => (g.1, if g.1 = k then withTarget id g.2 else g.2)) =
          groups := by
        conv_rhs => rw [← List.map_id groups]
        refine List.map_congr_left fun g hg => ?_
        rw [if_neg fun he => hk (List.mem_map.mpr ⟨g, hg, he⟩)]
        rfl
      rw [hrest, withTarget]
    · rw [ih hnd]

/-- One group for each root, with the ops and the targets seen so far. -/
structure Grouped (f : NodeId → Nat) (ops seen : List NodeId)
    (groups : List (Nat × List NodeId)) : Prop where
  keys : (groups.map (·.1)).Nodup
  count : groups.length ≤ ops.length
  all : ∀ x ∈ ops, f x ∈ groups.map (·.1)
  nodup : ∀ g ∈ groups, g.2.Nodup
  mem : ∀ g ∈ groups, ∀ x, x ∈ g.2 ↔ (x ∈ ops ∨ x ∈ seen) ∧ f x = g.1

variable {f : NodeId → Nat} {ops seen : List NodeId} {groups : List (Nat × List NodeId)}

theorem groupsBy_grouped (h : ops.Nodup) : Grouped f ops [] (Fusion.groupsBy f ops) := by
  obtain ⟨hkeys, hmem, -⟩ := @Fusion.groupsBy_spec ops f
  have hcount := @Fusion.length_keysOf_le ops f
  rw [Fusion.keysOf, List.length_map] at hcount
  refine ⟨hkeys, hcount, fun x hx => (hmem _).mpr ⟨x, hx, rfl⟩, ?_, ?_⟩
  · rintro ⟨r, ms⟩ hg
    rw [(Fusion.mem_groupsBy.mp hg).1]
    exact h.filter _
  · rintro ⟨r, ms⟩ hg x
    rw [(Fusion.mem_groupsBy.mp hg).1]
    simp

theorem Grouped.attach (h : Grouped f ops seen groups) :
    Grouped f ops (seen ++ [id]) (Bridge.attach (f id) id groups) := by
  have hkeys : (Bridge.attach (f id) id groups).map (·.1) = groups.map (·.1) := by
    rw [attach_eq h.keys, List.map_map]
    rfl
  have hcount : (Bridge.attach (f id) id groups).length = groups.length := by
    rw [attach_eq h.keys, List.length_map]
  refine ⟨hkeys ▸ h.keys, hcount ▸ h.count, hkeys ▸ h.all, fun g hg => ?_, fun g hg x => ?_⟩
  · rw [attach_eq h.keys] at hg
    obtain ⟨g₀, hg₀, rfl⟩ := List.mem_map.mp hg
    dsimp only
    split
    · exact withTarget_nodup (h.nodup g₀ hg₀)
    · exact h.nodup g₀ hg₀
  · rw [attach_eq h.keys] at hg
    obtain ⟨g₀, hg₀, rfl⟩ := List.mem_map.mp hg
    have hx := h.mem g₀ hg₀ x
    dsimp only
    split
    · next hroot =>
      rw [mem_withTarget, hx, List.mem_append, List.mem_singleton]
      grind
    · next hroot =>
      rw [hx, List.mem_append, List.mem_singleton]
      grind

/-- A loop that looks a root up for each of its elements. -/
theorem foldl_find {α σ : Type} {key : α → NodeId} {update : Nat → α → σ → σ} {l : List α}
    {parent' : List Nat} (hsame : SameRoots parent parent')
    (hl : ∀ x ∈ l, (key x).index < parent.length) (s : σ) :
    ∃ q, SameRoots parent q ∧ l.foldl (fun r x =>
        let found := find r.1 (key x).index
        (found.1, update found.2 x r.2)) (parent', s) =
      (q, l.foldl (fun s x => update (rootOf parent (key x)) x s) s) := by
  induction l generalizing parent' s with
  | nil => exact ⟨parent', hsame, rfl⟩
  | cons x l ih =>
    have hx := hl x List.mem_cons_self
    obtain ⟨hnext, hroot⟩ := find_spec hsame.descending (hsame.length.symm ▸ hx)
    rw [hsame.root _ hx] at hroot
    obtain ⟨q, hq, hfold⟩ := ih (hsame.trans hnext) (fun y hy => hl y (List.mem_cons_of_mem _ hy))
      (update (rootOf parent (key x)) x s)
    refine ⟨q, hq, ?_⟩
    rw [List.foldl_cons, List.foldl_cons, ← hfold]
    simp only [hroot, rootOf]

/-- The groups of the winner: of its ops and of the targets it fuses into. -/
theorem groups_grouped (hd : Drawn a poly) (hw : poly.WithinBounds winner) :
    Grouped (rootOf ((fusedPairs winner).foldl link (List.range a.slotCount))) (opsOf poly)
      ((fusedPairs winner).map (·.2)) (Bridge.groups a poly winner) := by
  have hdrawn := fusedPairs_drawn hd hw
  have hspans := fusedPairs_spans fun e he => (hdrawn e he).2
  have hgroups : Bridge.groups a poly winner =
      ((fusedPairs winner).foldl (fun r (e : NodeId × NodeId) =>
        let found := find r.1 e.1.index
        (found.1, Bridge.attach found.2 e.2 r.2)) (poly.opBounds.foldl (fun r (b : OpBounds) =>
          let found := find r.1 b.opId.index
          (found.1, addMember found.2 b.opId r.2))
          ((fusedPairs winner).foldl link (List.range a.slotCount), []))).2 := rfl
  rw [hgroups]
  generalize (fusedPairs winner).foldl link (List.range a.slotCount) = linked at hspans
  have hlt : ∀ {x}, x ∈ a.liveIds → x.index < linked.length := fun hx =>
    hspans.length.symm ▸ Fusion.index_lt_of_mem_liveIds hx
  obtain ⟨q, hq, hgrouped⟩ := @foldl_find linked _ _ (fun b : OpBounds => b.opId)
    (fun root b groups => addMember root b.opId groups) poly.opBounds linked (.refl hspans.descending)
    (fun b hb => hlt (hd.ops b hb)) []
  have hby : poly.opBounds.foldl (fun s b => addMember (rootOf linked b.opId) b.opId s) [] =
      Fusion.groupsBy (rootOf linked) (opsOf poly) := by
    simp only [addMember_eq, opsOf, Fusion.groupsBy, List.foldl_map]
  obtain ⟨q', hq', hattached⟩ := @foldl_find linked _ _ (fun e : NodeId × NodeId => e.1)
    (fun root e groups => Bridge.attach root e.2 groups) (fusedPairs winner) q hq
    (fun e he => hlt (hdrawn e he).2.1) (Fusion.groupsBy (rootOf linked) (opsOf poly))
  rw [hgrouped, hby, hattached]
  -- Attaching one target after the other.
  suffices hfrom : ∀ (pairs : List (NodeId × NodeId)) (seen : List NodeId)
      (groups : List (Nat × List NodeId)), (∀ e ∈ pairs, e ∈ fusedPairs winner) →
      Grouped (rootOf linked) (opsOf poly) seen groups →
      Grouped (rootOf linked) (opsOf poly) (seen ++ pairs.map (·.2))
        (pairs.foldl (fun s e => Bridge.attach (rootOf linked e.1) e.2 s) groups) from
    hfrom _ [] _ (fun _ he => he) (groupsBy_grouped hd.nodup)
  intro pairs
  induction pairs with
  | nil => exact fun seen groups _ h => by simpa using h
  | cons e pairs ih =>
    intro seen groups hpairs h
    have hroot := hspans.linked e (hpairs e List.mem_cons_self)
    have hstep := ih (seen ++ [e.2]) (Bridge.attach (rootOf linked e.1) e.2 groups)
      (fun e' he' => hpairs e' (List.mem_cons_of_mem _ he')) (hroot ▸ h.attach)
    simpa using hstep

-- ---------------------------------------------------------------------------
-- Clusters
-- ---------------------------------------------------------------------------

theorem insertMember_perm (id : NodeId) (members : List NodeId) :
    (ClusterSet.insertMember id members).Perm (id :: members) := by
  induction members with
  | nil => exact .refl _
  | cons m members ih =>
    rw [ClusterSet.insertMember]
    split
    · exact .refl _
    · exact (ih.cons m).trans (.swap id m members)

/-- A node of the slot is listed in the cluster. -/
def Lists (clusters : List Cluster) (k : UInt32) (j : Nat) : Prop :=
  ∃ c, clusters[k.toNat]? = some c ∧ ∃ m ∈ c.members, m.index = j

/-- Slots are owned by the clusters that list them. -/
def Consistent (cs : ClusterSet) : Prop :=
  ∀ (j : Nat) (k : UInt32), cs.owner[j]? = some (some k) ↔ Lists cs.clusters k j

variable {cs : ClusterSet} {old : List Cluster} {c : Cluster} {k idx : UInt32} {ms : List NodeId}
  {j : Nat}

theorem lists_concat : Lists (old ++ [c]) k j ↔
    Lists old k j ∨ k.toNat = old.length ∧ ∃ m ∈ c.members, m.index = j := by
  unfold Lists
  rcases Nat.lt_trichotomy k.toNat old.length with hlt | heq | hgt
  · rw [List.getElem?_append_left hlt]
    simp [hlt.ne]
  · simp [heq]
  · have hnone : (old ++ [c])[k.toNat]? = none := by
      rw [List.getElem?_eq_none_iff]
      simpa using hgt
    have hold : old[k.toNat]? = none := by
      rw [List.getElem?_eq_none_iff]
      omega
    simp [hnone, hold, hgt.ne']

/-- A free node goes into the newest cluster. -/
theorem assign_last (h : Consistent cs) (hc : cs.clusters = old ++ [c]) (hidx : idx.toNat = old.length)
    (hfree : cs.owner[id.index]? = some none) : ∃ cs', cs.assign idx id = .ok cs' ∧
      cs'.clusters = old ++ [{ c with members := ClusterSet.insertMember id c.members }] ∧
      cs'.owner = cs.owner.set id.index (some idx) ∧ Consistent cs' := by
  have hlt : id.index < cs.owner.length := (List.getElem?_eq_some_iff.mp hfree).1
  have hclusters : cs.clusters.modify idx.toNat
      (fun c => { c with members := ClusterSet.insertMember id c.members }) =
        old ++ [{ c with members := ClusterSet.insertMember id c.members }] := by
    rw [hc, hidx, List.modify_eq_take_drop]
    simp
  refine ⟨⟨old ++ [{ c with members := ClusterSet.insertMember id c.members }],
    cs.owner.set id.index (some idx)⟩, by simp only [ClusterSet.assign, hfree, hclusters], rfl, rfl,
    fun j k => ?_⟩
  have hbefore := h j k
  rw [hc, lists_concat] at hbefore
  have hinsert : (∃ m ∈ ClusterSet.insertMember id c.members, m.index = j) ↔
      id.index = j ∨ ∃ m ∈ c.members, m.index = j := by
    simp [(insertMember_perm id c.members).mem_iff]
  rw [lists_concat, hinsert]
  by_cases hj : id.index = j
  · subst hj
    rw [List.getElem?_set_self hlt, Option.some.injEq, Option.some.injEq]
    rw [hfree] at hbefore
    have hk : idx = k ↔ k.toNat = old.length := by
      rw [← hidx, UInt32.toNat_inj, eq_comm]
    rw [hk]
    simp only [Option.some.injEq, reduceCtorEq, false_iff, not_or] at hbefore
    simp [hbefore.1]
  · rw [List.getElem?_set_ne hj, hbefore]
    simp [hj]

/-- All members of a group go into the newest cluster. -/
theorem assignAll_last (h : Consistent cs) (hc : cs.clusters = old ++ [c])
    (hidx : idx.toNat = old.length) (hnd : (ms.map (·.index)).Nodup)
    (hfree : ∀ m ∈ ms, cs.owner[m.index]? = some none) :
    ∃ cs' members, assignAll cs idx ms = .ok cs' ∧ members.Perm (ms ++ c.members) ∧
      cs'.clusters = old ++ [{ c with members }] ∧ Consistent cs' ∧
      ∀ j, j ∉ ms.map (·.index) → cs'.owner[j]? = cs.owner[j]? := by
  induction ms generalizing cs c with
  | nil => exact ⟨cs, c.members, rfl, .refl _, hc, h, fun _ _ => rfl⟩
  | cons m ms ih =>
    obtain ⟨hm, hnd⟩ := List.nodup_cons.mp hnd
    obtain ⟨cs₁, hassign, hc₁, howner, h₁⟩ := assign_last h hc hidx (hfree m List.mem_cons_self)
    obtain ⟨cs', members, hrest, hperm, hc', h', hkeep⟩ := ih h₁ hc₁ hnd fun x hx => by
      have hne : m.index ≠ x.index := fun he => hm (List.mem_map.mpr ⟨x, hx, he.symm⟩)
      rw [howner, List.getElem?_set_ne hne]
      exact hfree x (List.mem_cons_of_mem _ hx)
    refine ⟨cs', members, ?_, ?_, hc', h', fun j hj => ?_⟩
    · rw [assignAll, List.foldlM_cons, hassign]
      exact hrest
    · refine hperm.trans (((insertMember_perm m c.members).append_left ms).trans ?_)
      exact List.perm_middle
    · simp only [List.map_cons, List.mem_cons, not_or] at hj
      rw [hkeep j hj.2, howner, List.getElem?_set_ne (Ne.symm hj.1)]

/-- A cluster made of a group. -/
def MadeOf (a : IrArena) (hw : HardwareModel) (c : Cluster) (g : Nat × List NodeId) : Prop :=
  c.members.Perm g.2 ∧
    c.sharedBudget = .ofNat (min (Saturating.sum (g.2.map (memberBytes a))) hw.sramCapBytes)

/-- The groups that become clusters. -/
def large (groups : List (Nat × List NodeId)) : List (Nat × List NodeId) :=
  groups.filter fun g => 2 ≤ g.2.length

/-- The clusters of the groups seen so far; the nodes of the others are free. -/
structure Assigned (a : IrArena) (hw : HardwareModel) (done rest : List (Nat × List NodeId))
    (cs : ClusterSet) : Prop where
  made : List.Forall₂ (MadeOf a hw) cs.clusters (large done)
  consistent : Consistent cs
  free : ∀ g ∈ rest, ∀ m ∈ g.2, cs.owner[m.index]? = some none

theorem addGroup_assigned {done rest : List (Nat × List NodeId)} {g : Nat × List NodeId}
    (h : Assigned a hw done (g :: rest) cs) (hnd : (g.2.map (·.index)).Nodup)
    (hapart : ∀ g' ∈ rest, ∀ m' ∈ g'.2, m'.index ∉ g.2.map (·.index))
    (hfew : done.length < 2 ^ 32) :
    ∃ cs', addGroup a hw cs g = .ok cs' ∧ Assigned a hw (done ++ [g]) rest cs' := by
  unfold addGroup
  split
  · next hsmall =>
    have hlarge : large (done ++ [g]) = large done := by
      simp [large, List.filter_append, Nat.not_le.mpr hsmall]
    exact ⟨cs, rfl, hlarge.symm ▸ h.made, h.consistent,
      fun g' hg' => h.free g' (List.mem_cons_of_mem _ hg')⟩
  · next hsize =>
    have hlarge : large (done ++ [g]) = large done ++ [g] := by
      simp [large, List.filter_append, Nat.le_of_not_lt hsize]
    have hcount : cs.clusters.length ≤ done.length :=
      h.made.length_eq.trans_le (List.length_filter_le _ _)
    have hnew : Consistent { cs with clusters := cs.clusters ++
        [⟨[], .ofNat (min (Saturating.sum (g.2.map (memberBytes a))) hw.sramCapBytes), 1024, false⟩] } := by
      intro j k
      rw [lists_concat]
      simpa using h.consistent j k
    obtain ⟨cs', members, hassign, hperm, hclusters, hcons, hkeep⟩ :=
      assignAll_last hnew rfl (Fusion.toNat_index (by omega)) hnd (h.free g List.mem_cons_self)
    refine ⟨cs', hassign, ?_, hcons, fun g' hg' m' hm' => ?_⟩
    · rw [hlarge, hclusters]
      refine List.rel_append h.made (.cons ⟨by simpa using hperm, rfl⟩ .nil)
    · rw [hkeep _ (hapart g' hg' m' hm')]
      exact h.free g' (List.mem_cons_of_mem _ hg') m' hm'

theorem index_nodup (h : ms.Nodup) (hlive : ∀ m ∈ ms, m ∈ a.liveIds) :
    (ms.map (·.index)).Nodup :=
  h.map_on fun x hx y hy => Fusion.eq_of_index (hlive x hx) (hlive y hy)

theorem Drawn.length_le (hd : Drawn a poly) : (opsOf poly).length ≤ a.slotCount := by
  have hsub : (opsOf poly) ⊆ a.liveIds := fun x hx => by
    obtain ⟨b, hb, rfl⟩ := List.mem_map.mp hx
    exact hd.ops b hb
  exact (hd.nodup.subperm hsub).length_le.trans (Fusion.length_liveIds_le a)

/-- Every group finds its nodes free. -/
theorem addGroups_assigned (hg : Grouped f ops seen groups) (hslots : ops.length ≤ 2 ^ 32)
    (hlive : ∀ g ∈ groups, ∀ m ∈ g.2, m ∈ a.liveIds) :
    ∃ cs, groups.foldlM (addGroup a hw) (.new a) = .ok cs ∧ Assigned a hw groups [] cs := by
  suffices hfrom : ∀ (rest done : List (Nat × List NodeId)) (cs : ClusterSet),
      done ++ rest = groups → Assigned a hw done rest cs →
      ∃ cs', rest.foldlM (addGroup a hw) cs = .ok cs' ∧ Assigned a hw groups [] cs' by
    refine hfrom groups [] _ rfl ⟨.nil, fun j k => ?_, fun g hg m hm => ?_⟩
    · simp [ClusterSet.new, Lists, List.getElem?_replicate]
    · have hlt := Fusion.index_lt_of_mem_liveIds (hlive g hg m hm)
      simp [ClusterSet.new, hlt]
  intro rest
  induction rest with
  | nil =>
    intro done cs hdone h
    rw [List.append_nil] at hdone
    exact ⟨cs, rfl, hdone ▸ h⟩
  | cons g rest ih =>
    intro done cs hdone h
    have hmem : ∀ g' ∈ g :: rest, g' ∈ groups := fun g' hg' => hdone ▸ List.mem_append_right _ hg'
    have hcount := hg.count
    have hlen : done.length < groups.length := by simp [← hdone]
    obtain ⟨cs', hadd, h'⟩ := addGroup_assigned h
      (index_nodup (hg.nodup g (hmem g List.mem_cons_self)) (hlive g (hmem g List.mem_cons_self)))
      (fun g' hg' m' hm' hin => by
        obtain ⟨m, hm, hindex⟩ := List.mem_map.mp hin
        have hg₀ := hmem g List.mem_cons_self
        have hg₁ := hmem g' (List.mem_cons_of_mem _ hg')
        obtain rfl := Fusion.eq_of_index (hlive g hg₀ m hm) (hlive g' hg₁ m' hm') hindex
        have hkey := ((hg.mem g hg₀ m).mp hm).2.symm.trans ((hg.mem g' hg₁ m).mp hm').2
        have hnd := hg.keys
        rw [← hdone, List.map_append, List.map_cons, List.nodup_append] at hnd
        exact (List.nodup_cons.mp hnd.2.1).1 (List.mem_map.mpr ⟨g', hg', hkey.symm⟩))
      (by omega)
    obtain ⟨cs'', hrest, h''⟩ := ih (done ++ [g]) cs' (by simpa using hdone) h'
    refine ⟨cs'', ?_, h''⟩
    rw [List.foldlM_cons, hadd]
    exact hrest

-- ---------------------------------------------------------------------------
-- Components
-- ---------------------------------------------------------------------------

/-- The clusters are the components of the fused pairs, with budgets of their
members' bytes up to the capacity. -/
structure Clustered (a : IrArena) (winner : List PackedOpSched) (hw : HardwareModel)
    (cs : ClusterSet) : Prop where
  same : ∀ x ∈ a.liveIds, ∀ y ∈ a.liveIds, x ≠ y →
    ((∃ k, cs.clusterOf x = some k ∧ cs.clusterOf y = some k) ↔ Connected (fusedPairs winner) x y)
  outside : ∀ x ∈ a.liveIds, (∀ e ∈ fusedPairs winner, x ≠ e.1 ∧ x ≠ e.2) → cs.clusterOf x = none
  members : ∀ (k : UInt32) (c : Cluster), cs.cluster k = some c →
    ∀ x, x ∈ c.members ↔ x ∈ a.liveIds ∧ cs.clusterOf x = some k
  size : ∀ c ∈ cs.clusters, 2 ≤ c.members.length
  budget : ∀ c ∈ cs.clusters,
    c.sharedBudget.toNat = min (c.members.map (memberBytes a)).sum hw.sramCapBytes

theorem Connected.mem (h : Connected pairs x y) :
    x = y ∨ (∃ e ∈ pairs, x = e.1 ∨ x = e.2) ∧ ∃ e ∈ pairs, y = e.1 ∨ y = e.2 := by
  induction h with
  | rel x y he => exact .inr ⟨⟨_, he, .inl rfl⟩, _, he, .inr rfl⟩
  | refl x => exact .inl rfl
  | symm x y _ ih => exact ih.imp Eq.symm And.symm
  | trans x y z _ _ ih ih' =>
    rcases ih with rfl | ⟨hx, hy⟩
    · exact ih'
    · rcases ih' with rfl | ⟨_, hz⟩
      · exact .inr ⟨hx, hy⟩
      · exact .inr ⟨hx, hz⟩

theorem two_le_length (h : ms.Nodup) (hx : x ∈ ms) (hy : y ∈ ms) (hne : x ≠ y) : 2 ≤ ms.length := by
  match ms with
  | [] => cases hx
  | [z] => exact absurd ((List.mem_singleton.mp hx).trans (List.mem_singleton.mp hy).symm) hne
  | _ :: _ :: _ => simp

theorem exists_other (h : ms.Nodup) (hx : x ∈ ms) (hlen : 2 ≤ ms.length) : ∃ y ∈ ms, y ≠ x := by
  by_contra hall
  push Not at hall
  match ms with
  | [] | [_] => simp at hlen
  | y :: z :: ms =>
    have hyz := (hall y (by simp)).trans (hall z (by simp)).symm
    simp [hyz] at h

theorem Assigned.group (h : Assigned a hw groups [] cs) (hc : c ∈ cs.clusters) :
    ∃ g ∈ groups, 2 ≤ g.2.length ∧ MadeOf a hw c g := by
  obtain ⟨g, hg, hmade⟩ := Schedule.mem_of_forall₂ h.made.flip hc
  obtain ⟨hg, hlen⟩ := List.mem_filter.mp hg
  exact ⟨g, hg, by simpa using hlen, hmade⟩

theorem Assigned.cluster (h : Assigned a hw groups [] cs) (hfew : groups.length ≤ 2 ^ 32)
    {g : Nat × List NodeId} (hg : g ∈ groups) (hlen : 2 ≤ g.2.length) :
    ∃ k c, cs.cluster k = some c ∧ MadeOf a hw c g := by
  obtain ⟨c, hc, hmade⟩ := Schedule.mem_of_forall₂ h.made
    (List.mem_filter.mpr ⟨hg, by simpa using hlen⟩)
  obtain ⟨i, hi⟩ := List.mem_iff_getElem?.mp hc
  have hlt := (List.getElem?_eq_some_iff.mp hi).1
  have hcount : cs.clusters.length ≤ groups.length :=
    h.made.length_eq.trans_le (List.length_filter_le _ _)
  refine ⟨.ofNat i, c, ?_, hmade⟩
  rw [ClusterSet.cluster, Fusion.toNat_index (by omega)]
  exact hi

theorem clusterOf_iff (h : Consistent cs) : cs.clusterOf x = some k ↔ Lists cs.clusters k x.index := by
  rw [← h x.index k, ClusterSet.clusterOf, Option.join_eq_some_iff]

theorem budget_toNat (hcap : hw.sramCapBytes < 2 ^ 32) {g : Nat × List NodeId}
    (h : MadeOf a hw c g) :
    c.sharedBudget.toNat = min (c.members.map (memberBytes a)).sum hw.sramCapBytes := by
  rw [h.2, Fusion.toNat_index (by omega), Saturating.sum_eq, (h.1.map _).sum_eq]
  have hmax : (2 : Nat) ^ 32 < Saturating.u64Max := by decide
  omega

theorem live_of_group {linked : List Nat} (hspans : Spans a (fusedPairs winner) linked)
    (hg : Grouped (rootOf linked) ops ((fusedPairs winner).map (·.2)) groups)
    (hops : ∀ x ∈ ops, x ∈ a.liveIds) {g : Nat × List NodeId} (hgm : g ∈ groups) (hx : x ∈ g.2) :
    x ∈ a.liveIds := by
  rcases ((hg.mem g hgm x).mp hx).1 with hx | hx
  · exact hops x hx
  · obtain ⟨e, he, rfl⟩ := List.mem_map.mp hx
    exact (hspans.live e he).2

/-- What the loops leave: the trees, the groups and the clusters. -/
structure Bridged (a : IrArena) (winner : List PackedOpSched) (hw : HardwareModel)
    (ops : List NodeId) (linked : List Nat) (groups : List (Nat × List NodeId))
    (cs : ClusterSet) : Prop where
  spans : Spans a (fusedPairs winner) linked
  grouped : Grouped (rootOf linked) ops ((fusedPairs winner).map (·.2)) groups
  pairs : ∀ e ∈ fusedPairs winner, e.1 ∈ ops
  live : ∀ g ∈ groups, ∀ x ∈ g.2, x ∈ a.liveIds
  assigned : Assigned a hw groups [] cs
  few : groups.length ≤ 2 ^ 32

variable {linked : List Nat}

/-- A node of a pair is in the group of its root. -/
theorem Bridged.group_of_pair (h : Bridged a winner hw ops linked groups cs)
    (hx : ∃ e ∈ fusedPairs winner, x = e.1 ∨ x = e.2) :
    ∃ g ∈ groups, g.1 = rootOf linked x ∧ (x ∈ ops ∨ x ∈ (fusedPairs winner).map (·.2)) := by
  obtain ⟨e, he, hxe⟩ := hx
  obtain ⟨g, hgm, hkey⟩ := List.mem_map.mp (h.grouped.all e.1 (h.pairs e he))
  refine ⟨g, hgm, ?_⟩
  rcases hxe with rfl | rfl
  · exact ⟨hkey, .inl (h.pairs e he)⟩
  · exact ⟨hkey.trans (h.spans.linked e he), .inr (List.mem_map_of_mem he)⟩

theorem Bridged.mem_members_iff (h : Bridged a winner hw ops linked groups cs)
    (hk : cs.cluster k = some c) : x ∈ c.members ↔ x ∈ a.liveIds ∧ cs.clusterOf x = some k := by
  obtain ⟨g, hgm, -, hmade⟩ := h.assigned.group (List.mem_of_getElem? hk)
  have hlive : ∀ m ∈ c.members, m ∈ a.liveIds := fun m hm =>
    h.live g hgm m (hmade.1.mem_iff.mp hm)
  rw [clusterOf_iff h.assigned.consistent]
  constructor
  · exact fun hx => ⟨hlive x hx, c, hk, x, hx, rfl⟩
  · rintro ⟨hx, c', hk', m, hm, hindex⟩
    obtain rfl : c' = c := Option.some.inj (hk'.symm.trans hk)
    rwa [← Fusion.eq_of_index (hlive m hm) hx hindex]

/-- What is in a cluster is in its group. -/
theorem Bridged.group_of_clusterOf (h : Bridged a winner hw ops linked groups cs)
    (hx : x ∈ a.liveIds) (hk : cs.clusterOf x = some k) :
    ∃ c, cs.cluster k = some c ∧ ∃ g ∈ groups, 2 ≤ g.2.length ∧ MadeOf a hw c g ∧ x ∈ g.2 := by
  obtain ⟨c, hc, m, hm, hindex⟩ := (clusterOf_iff h.assigned.consistent).mp hk
  obtain ⟨g, hgm, hlen, hmade⟩ := h.assigned.group (List.mem_of_getElem? hc)
  have hxc := (h.mem_members_iff hc).mpr ⟨hx, hk⟩
  exact ⟨c, hc, g, hgm, hlen, hmade, hmade.1.mem_iff.mp hxc⟩

/-- To share a cluster is to share a root. -/
theorem Bridged.same_iff (h : Bridged a winner hw ops linked groups cs) (hx : x ∈ a.liveIds)
    (hy : y ∈ a.liveIds) (hne : x ≠ y) :
    (∃ k, cs.clusterOf x = some k ∧ cs.clusterOf y = some k) ↔
      Connected (fusedPairs winner) x y := by
  have hg := h.grouped
  rw [← h.spans.root_iff hx hy]
  constructor
  · rintro ⟨k, hxk, hyk⟩
    obtain ⟨c, hc, g, hgm, -, hmade, hxg⟩ := h.group_of_clusterOf hx hxk
    have hyc := (h.mem_members_iff hc).mpr ⟨hy, hyk⟩
    have hyg := hmade.1.mem_iff.mp hyc
    exact ((hg.mem g hgm x).mp hxg).2.trans ((hg.mem g hgm y).mp hyg).2.symm
  · intro hroot
    have hconn := (h.spans.root_iff hx hy).mp hroot
    obtain ⟨hxp, hyp⟩ := hconn.mem.resolve_left hne
    obtain ⟨g, hgm, hkey, hxin⟩ := h.group_of_pair hxp
    obtain ⟨_, -, -, hyin⟩ := h.group_of_pair hyp
    have hxg := (hg.mem g hgm x).mpr ⟨hxin, hkey.symm⟩
    have hyg := (hg.mem g hgm y).mpr ⟨hyin, hroot.symm.trans hkey.symm⟩
    obtain ⟨k, c, hc, hmade⟩ := h.assigned.cluster h.few hgm
      (two_le_length (hg.nodup g hgm) hxg hyg hne)
    have hof : ∀ z ∈ g.2, cs.clusterOf z = some k := fun z hz =>
      ((h.mem_members_iff hc).mp (hmade.1.mem_iff.mpr hz)).2
    exact ⟨k, hof x hxg, hof y hyg⟩

theorem Bridged.clustered (h : Bridged a winner hw ops linked groups cs)
    (hcap : hw.sramCapBytes < 2 ^ 32) : Clustered a winner hw cs where
  same x hx y hy hne := h.same_iff hx hy hne
  outside x hx hout := by
    by_contra hsome
    obtain ⟨k, hk⟩ := Option.ne_none_iff_exists'.mp hsome
    obtain ⟨c, hc, g, hgm, hlen, hmade, hxg⟩ := h.group_of_clusterOf hx hk
    obtain ⟨y, hyg, hne⟩ := exists_other (h.grouped.nodup g hgm) hxg hlen
    have hroot := ((h.grouped.mem g hgm x).mp hxg).2.trans ((h.grouped.mem g hgm y).mp hyg).2.symm
    have hconn := (h.spans.root_iff hx (h.live g hgm y hyg)).mp hroot
    obtain ⟨⟨e, he, hxe⟩, -⟩ := hconn.mem.resolve_left (Ne.symm hne)
    exact hxe.elim (hout e he).1 (hout e he).2
  members k c hk x := h.mem_members_iff hk
  size c hc := by
    obtain ⟨g, -, hlen, hmade⟩ := h.assigned.group hc
    exact hmade.1.length_eq ▸ hlen
  budget c hc := by
    obtain ⟨g, -, -, hmade⟩ := h.assigned.group hc
    exact budget_toNat hcap hmade

/-- The bridge makes the fused components of the winner its clusters. -/
theorem buildClusters_components (hslots : a.slotCount ≤ 2 ^ 32) (hcap : hw.sramCapBytes < 2 ^ 32)
    (hpoly : poly = extractPolytope a hw ∨ poly = truncatePolytope (extractPolytope a hw))
    (hver : verifyCandidate a poly winner = .ok ()) :
    ∃ cs, buildClusters a poly winner hw = .ok cs ∧ Clustered a winner hw cs := by
  have hd : Drawn a poly := by
    rcases hpoly with rfl | rfl
    · exact extractPolytope_drawn a hw
    · exact (extractPolytope_drawn a hw).truncate
  have hbounds := withinBounds_of_verify hver
  have hdrawn := fusedPairs_drawn hd hbounds
  have hspans := fusedPairs_spans fun e he => (hdrawn e he).2
  have hg := groups_grouped hd hbounds
  have hops : ∀ x ∈ opsOf poly, x ∈ a.liveIds := fun x hx => by
    obtain ⟨b, hb, rfl⟩ := List.mem_map.mp hx
    exact hd.ops b hb
  have hcount : (opsOf poly).length ≤ 2 ^ 32 := hd.length_le.trans hslots
  have hlive := fun g hgm x hx => @live_of_group a winner x _ _ _ hspans hg hops g hgm hx
  obtain ⟨cs, hcs, hassigned⟩ := @addGroups_assigned a hw _ _ _ _ hg hcount hlive
  have hbridged : Bridged a winner hw _ _ _ cs := {
    spans := hspans
    grouped := hg
    pairs := fun e he => (hdrawn e he).1
    live := hlive
    assigned := hassigned
    few := hg.count.trans hcount }
  exact ⟨cs, hcs, hbridged.clustered hcap⟩

/-- The negation fused into the addition: one cluster of the two. -/
theorem buildClusters_components_negationAdded : ∃ cs,
    buildClusters negationAdded (extractPolytope negationAdded .reference) negationFused .reference =
      .ok cs ∧ Clustered negationAdded negationFused .reference cs :=
  buildClusters_components (by decide) (by decide) (.inl rfl) rfl

end Bridge

end Sxla
