import Sxla.Fusion.Groups
import Sxla.Graph.Verifier

/-!
# Repair

A round of repair takes the largest member out of each group that is over
the shared memory budget, by making it its own root. For a member that is the
root already this changes nothing, so such a group stays as it is. A group
comes within the budget exactly when the members that are no larger than its
root do.
-/

namespace Sxla

namespace Fusion

open Checked Forest

variable {a : IrArena} {parent : List Nat} {live ms : List NodeId} {f g : NodeId → Nat}
  {id m x y : NodeId} {r : Nat} {u : Universe}

def nodeBytes (a : IrArena) (id : NodeId) : Nat :=
  match a.node id with
  | .ok n => n.ty.byteSize
  | .error _ => 0

def bytesOf (a : IrArena) (ms : List NodeId) : Nat := (ms.map (nodeBytes a)).sum

-- ---------------------------------------------------------------------------
-- One group
-- ---------------------------------------------------------------------------

theorem addMember_shared (used : Nat × Nat) (ms : List NodeId) :
    (ms.foldl (addMember a) used).1 ≤ SHARED_MEM_BUDGET_BYTES ↔
      used.1 + bytesOf a ms ≤ SHARED_MEM_BUDGET_BYTES := by
  induction ms generalizing used with
  | nil => simp [bytesOf]
  | cons m ms ih =>
    have hcons : bytesOf a (m :: ms) = nodeBytes a m + bytesOf a ms := by simp [bytesOf]
    rw [List.foldl_cons, ih, hcons]
    cases hm : a.node m with
    | error e => simp [addMember, nodeBytes, hm]
    | ok n =>
      simp only [addMember, nodeBytes, hm, saturatingAdd, SHARED_MEM_BUDGET_BYTES]
      omega

/-- The budget is far below where the estimate saturates. -/
theorem sharedBytes_le : (resourceEstimate a ms).sharedBytes ≤ SHARED_MEM_BUDGET_BYTES ↔
    bytesOf a ms ≤ SHARED_MEM_BUDGET_BYTES := by
  have h := addMember_shared (a := a) (0, 0) ms
  rwa [Nat.zero_add] at h

/-- The larger of the best member so far and the next one. -/
def larger (a : IrArena) (best : Option (NodeId × Nat)) (m : NodeId) : Option (NodeId × Nat) :=
  match a.node m, best with
  | .error _, _ => best
  | .ok n, none => some (m, n.ty.byteSize)
  | .ok n, some (_, bytes) =>
    if decide (n.ty.byteSize > bytes) = true then some (m, n.ty.byteSize) else best

theorem pick_eq : pick a (fun bytes best => bytes > best) ms = ms.foldl (larger a) none := rfl

theorem larger_none {n : Node} (hn : a.node x = .ok n) :
    larger a none x = some (x, nodeBytes a x) := by
  simp [larger, nodeBytes, hn]

theorem larger_some {n : Node} (hn : a.node y = .ok n) :
    larger a (some (x, nodeBytes a x)) y =
      if nodeBytes a y > nodeBytes a x then some (y, nodeBytes a y) else some (x, nodeBytes a x) := by
  simp only [larger, nodeBytes, hn, decide_eq_true_eq]

/-- The first of the largest, behind a member `x`. -/
theorem foldl_larger (hres : ∀ m ∈ ms, ∃ n, a.node m = .ok n) (x : NodeId) :
    ∃ m, ms.foldl (larger a) (some (x, nodeBytes a x)) = some (m, nodeBytes a m) ∧
      (m = x ∨ m ∈ ms ∧ nodeBytes a x < nodeBytes a m) ∧
        ∀ y ∈ x :: ms, nodeBytes a y ≤ nodeBytes a m := by
  induction ms generalizing x with
  | nil => exact ⟨x, rfl, .inl rfl, by simp⟩
  | cons y ms ih =>
    obtain ⟨n, hn⟩ := hres y List.mem_cons_self
    have hrest : ∀ m ∈ ms, ∃ n, a.node m = .ok n := fun m hm => hres m (List.mem_cons_of_mem _ hm)
    rw [List.foldl_cons, larger_some hn]
    split
    · next hlt =>
      obtain ⟨m, hfold, hm, hmax⟩ := ih hrest y
      have hym := hmax y List.mem_cons_self
      refine ⟨m, hfold, .inr ⟨?_, by omega⟩, fun z hz => ?_⟩
      · rcases hm with rfl | ⟨hm, _⟩
        · exact List.mem_cons_self
        · exact List.mem_cons_of_mem _ hm
      · rcases List.mem_cons.mp hz with rfl | hz
        · omega
        · exact hmax z hz
    · next hle =>
      obtain ⟨m, hfold, hm, hmax⟩ := ih hrest x
      have hxm := hmax x List.mem_cons_self
      refine ⟨m, hfold, hm.imp_right fun ⟨hm, hlt⟩ => ⟨List.mem_cons_of_mem _ hm, hlt⟩,
        fun z hz => ?_⟩
      rcases List.mem_cons.mp hz with rfl | hz
      · exact hxm
      · rcases List.mem_cons.mp hz with rfl | hz
        · omega
        · exact hmax z (List.mem_cons_of_mem _ hz)

/-- The member that repair takes out. -/
def splitOff (a : IrArena) (ms : List NodeId) : Option NodeId :=
  if SHARED_MEM_BUDGET_BYTES < bytesOf a ms then
    (pick a (fun bytes best => bytes > best) ms).map (·.1)
  else none

theorem splitOff_cons (hres : ∀ m ∈ x :: ms, ∃ n, a.node m = .ok n) :
    splitOff a (x :: ms) = some m → m ∈ x :: ms ∧ (m = x ∨ nodeBytes a x < nodeBytes a m) ∧
      ∀ y ∈ x :: ms, nodeBytes a y ≤ nodeBytes a m := by
  obtain ⟨n, hn⟩ := hres x List.mem_cons_self
  obtain ⟨p, hfold, hp, hmax⟩ := foldl_larger (fun m hm => hres m (List.mem_cons_of_mem _ hm)) x
  rw [splitOff, pick_eq, List.foldl_cons, larger_none hn, hfold]
  split
  · intro h
    cases h
    refine ⟨?_, hp.imp_right And.right, hmax⟩
    rcases hp with rfl | ⟨hp, _⟩
    · exact List.mem_cons_self
    · exact List.mem_cons_of_mem _ hp
  · exact fun h => (nomatch h)

theorem splitOff_none (hres : ∀ m ∈ ms, ∃ n, a.node m = .ok n) :
    splitOff a ms = none ↔ bytesOf a ms ≤ SHARED_MEM_BUDGET_BYTES := by
  cases ms with
  | nil => simp [splitOff, bytesOf]
  | cons x ms =>
    obtain ⟨n, hn⟩ := hres x List.mem_cons_self
    obtain ⟨p, hfold, -, -⟩ := foldl_larger (fun m hm => hres m (List.mem_cons_of_mem _ hm)) x
    rw [splitOff, pick_eq, List.foldl_cons, larger_none hn, hfold]
    split <;> simp <;> omega

theorem splitGroup_eq (state : List Nat × Bool) (r : Nat) (ms : List NodeId) :
    splitGroup a state (r, ms) =
      match splitOff a ms with
      | some m => if m.index < state.1.length then (state.1.set m.index m.index, true) else state
      | none => state := by
  have hover : (resourceEstimate a ms).sharedBytes > SHARED_MEM_BUDGET_BYTES ↔
      SHARED_MEM_BUDGET_BYTES < bytesOf a ms := by
    rw [gt_iff_lt, ← Nat.not_le, ← Nat.not_le, sharedBytes_le]
  unfold splitGroup splitOff repairCluster
  by_cases hbytes : SHARED_MEM_BUDGET_BYTES < bytesOf a ms
  · have hbudget : (resourceEstimate a ms).overBudget = true := by
      simp [ResourceEstimate.overBudget, hover.mpr hbytes]
    simp only [hbudget, Bool.not_true, Bool.false_eq_true, if_false, if_pos (hover.mpr hbytes),
      if_pos hbytes]
    cases pick a (fun bytes best => bytes > best) ms <;> rfl
  · simp only [if_neg hbytes, if_neg (mt hover.mp hbytes)]
    split
    · next node heq =>
      split at heq
      · cases heq
      · obtain ⟨best, _, hbest⟩ := Option.map_eq_some_iff.mp heq
        cases hbest
    · rfl

-- ---------------------------------------------------------------------------
-- A round
-- ---------------------------------------------------------------------------

/-- The live nodes with the root `r`. -/
def mates (a : IrArena) (f : NodeId → Nat) (r : Nat) : List NodeId := a.liveIds.filter (f · = r)

theorem mem_mates : x ∈ mates a f r ↔ x ∈ a.liveIds ∧ f x = r := by
  simp [mates]

theorem mates_congr (h : ∀ id ∈ a.liveIds, f id = g id) : mates a f r = mates a g r :=
  List.filter_congr fun id hid => by rw [h id hid]

theorem exists_node_of_mates : ∀ x ∈ mates a f r, ∃ n, a.node x = .ok n :=
  fun _ hx => exists_node (mem_mates.mp hx).1

theorem splitOff_mem (h : splitOff a (mates a f r) = some m) :
    m ∈ mates a f r ∧ ∀ y ∈ mates a f r, nodeBytes a y ≤ nodeBytes a m := by
  have hres := @exists_node_of_mates a f r
  cases hm : mates a f r with
  | nil => simp [hm, splitOff, bytesOf] at h
  | cons x ms =>
    rw [hm] at h hres
    obtain ⟨hmem, -, hmax⟩ := splitOff_cons hres h
    exact ⟨hmem, hmax⟩

/-- The roots behind a round: what is taken out becomes its own. -/
def settle (a : IrArena) (f : NodeId → Nat) (id : NodeId) : Nat :=
  if splitOff a (mates a f (f id)) = some id then id.index else f id

theorem splitGroups_roots {groups : List (Nat × List NodeId)} (h : Descending parent)
    (hlength : parent.length = a.slotCount) (hflat : ∀ id ∈ a.liveIds, Flat parent id.index)
    (hsplit : ∀ group ∈ groups, ∀ m, splitOff a group.2 = some m → m ∈ a.liveIds)
    (changed : Bool) :
    (∀ id ∈ a.liveIds, rootOf (groups.foldl (splitGroup a) (parent, changed)).1 id =
      if ∃ group ∈ groups, splitOff a group.2 = some id then id.index else rootOf parent id) ∧
      ((groups.foldl (splitGroup a) (parent, changed)).2 = false →
        changed = false ∧ ∀ group ∈ groups, splitOff a group.2 = none) := by
  induction groups generalizing parent changed with
  | nil => simp
  | cons group groups ih =>
    obtain ⟨r, ms⟩ := group
    have hrest : ∀ group ∈ groups, ∀ m, splitOff a group.2 = some m → m ∈ a.liveIds :=
      fun group hg => hsplit group (List.mem_cons_of_mem _ hg)
    rw [List.foldl_cons, splitGroup_eq]
    cases hms : splitOff a ms with
    | none =>
      obtain ⟨hroots, hfalse⟩ := ih h hlength hflat hrest changed
      refine ⟨fun id hid => ?_, fun hf => ?_⟩
      · have hcons : (∃ group ∈ (r, ms) :: groups, splitOff a group.2 = some id) ↔
            ∃ group ∈ groups, splitOff a group.2 = some id := by simp [hms]
        rw [hroots id hid, if_congr hcons rfl rfl]
      · obtain ⟨hc, hall⟩ := hfalse hf
        exact ⟨hc, List.forall_mem_cons.mpr ⟨hms, hall⟩⟩
    | some m =>
      have hm : m ∈ a.liveIds := hsplit _ List.mem_cons_self m hms
      have hlt : m.index < parent.length := hlength.symm ▸ index_lt_of_mem_liveIds hm
      simp only [if_pos hlt]
      obtain ⟨hroots, hfalse⟩ := ih (h.set (Nat.le_refl _)) (List.length_set.trans hlength)
        (fun id hid => h.flat_set_self (hflat id hid) _) hrest true
      refine ⟨fun id hid => ?_, fun hf => absurd (hfalse hf).1 (by simp)⟩
      have hset : rootOf (parent.set m.index m.index) id =
          if id.index = m.index then id.index else rootOf parent id :=
        h.root_set_self (hflat id hid) _
      rw [hroots id hid, hset]
      by_cases hidm : id = m
      · subst hidm
        have hin : ∃ group ∈ (r, ms) :: groups, splitOff a group.2 = some id :=
          ⟨(r, ms), List.mem_cons_self, hms⟩
        simp only [if_pos hin, if_true, ite_self]
      · have hcons : (∃ group ∈ (r, ms) :: groups, splitOff a group.2 = some id) ↔
            ∃ group ∈ groups, splitOff a group.2 = some id := by simp [hms, Ne.symm hidm]
        rw [if_congr hcons rfl rfl, if_neg fun he => hidm (eq_of_index hid hm he)]

theorem round_spec (h : Descending parent) (hlength : parent.length = a.slotCount) :
    let next := (groupLive a.liveIds parent).2.foldl (splitGroup a)
      ((groupLive a.liveIds parent).1, false)
    Descending next.1 ∧ next.1.length = a.slotCount ∧
      (∀ id ∈ a.liveIds, rootOf next.1 id = settle a (rootOf parent) id) ∧
      (next.2 = false → ∀ id ∈ a.liveIds,
        splitOff a (mates a (rootOf parent) (rootOf parent id)) = none) := by
  have hlive : ∀ id ∈ a.liveIds, id.index < parent.length :=
    fun id hid => hlength.symm ▸ index_lt_of_mem_liveIds hid
  obtain ⟨hsame, hflat⟩ := groupLive_spec h hlive
  obtain ⟨hdesc, hlength', -⟩ :=
    splitGroups_spec (a := a) (groupLive a.liveIds parent).2 hsame.descending false
  have hgroup : ∀ {r ms}, (r, ms) ∈ (groupLive a.liveIds parent).2 ↔
      ms = mates a (rootOf parent) r ∧ ms ≠ [] := by
    intro r ms
    rw [groupLive_groups h hlive, mem_groupsBy]
    rfl
  obtain ⟨hroots, hfalse⟩ := splitGroups_roots hsame.descending (hsame.length.trans hlength) hflat
    (fun group hg m hm => by
      obtain ⟨r, ms⟩ := group
      rw [(hgroup.mp hg).1] at hm
      exact (mem_mates.mp (splitOff_mem hm).1).1) false
  have hof : ∀ id ∈ a.liveIds, (rootOf parent id, mates a (rootOf parent) (rootOf parent id)) ∈
      (groupLive a.liveIds parent).2 := fun id hid =>
    hgroup.mpr ⟨rfl, List.ne_nil_of_mem (mem_mates.mpr ⟨hid, rfl⟩)⟩
  refine ⟨hdesc, hlength'.trans (hsame.length.trans hlength), fun id hid => ?_, fun hf id hid => ?_⟩
  · have hroot : rootOf (groupLive a.liveIds parent).1 id = rootOf parent id :=
      hsame.root _ (hlive id hid)
    have hiff : (∃ group ∈ (groupLive a.liveIds parent).2, splitOff a group.2 = some id) ↔
        splitOff a (mates a (rootOf parent) (rootOf parent id)) = some id := by
      constructor
      · rintro ⟨⟨r, ms⟩, hg, hid'⟩
        rw [(hgroup.mp hg).1] at hid'
        obtain ⟨-, rfl⟩ := mem_mates.mp (splitOff_mem hid').1
        exact hid'
      · exact fun hid' => ⟨_, hof id hid, hid'⟩
    rw [hroots id hid, hroot, settle]
    simp only [hiff]
  · exact (hfalse hf).2 _ (hof id hid)

-- ---------------------------------------------------------------------------
-- All rounds
-- ---------------------------------------------------------------------------

/-- Repair would take out roots only. -/
def Stable (a : IrArena) (f : NodeId → Nat) : Prop :=
  ∀ id ∈ a.liveIds, ∀ m, splitOff a (mates a f (f id)) = some m → m.index = f id

def strays (a : IrArena) (f : NodeId → Nat) : List NodeId :=
  a.liveIds.filter fun id => f id ≠ id.index

theorem settle_of_stable (h : Stable a f) (hid : id ∈ a.liveIds) : settle a f id = f id := by
  unfold settle
  split
  · next hsplit => exact h id hid id hsplit
  · rfl

theorem stable_congr (h : ∀ id ∈ a.liveIds, g id = f id) (hs : Stable a f) : Stable a g := by
  intro id hid m hm
  rw [h id hid, mates_congr h] at hm
  rw [h id hid]
  exact hs id hid m hm

theorem stable_of_none (h : ∀ id ∈ a.liveIds, splitOff a (mates a f (f id)) = none) :
    Stable a f := by
  intro id hid m hm
  rw [h id hid] at hm
  cases hm

theorem stable_of_strays (h : (strays a f).length = 0) : Stable a f := by
  intro id hid m hm
  obtain ⟨hlive, hroot⟩ := mem_mates.mp (splitOff_mem hm).1
  by_contra hne
  have hm : m ∈ strays a f := by simpa [strays, hlive, hroot] using Ne.symm hne
  rw [List.length_eq_zero_iff.mp h] at hm
  cases hm

/-- A round that takes out a node that is no root leaves fewer of these. -/
theorem strays_settle (h : ¬ Stable a f) (hg : ∀ id ∈ a.liveIds, g id = settle a f id) :
    (strays a g).length < (strays a f).length := by
  have hsub : strays a g = (strays a f).filter fun id => g id ≠ id.index := by
    rw [strays, strays, List.filter_filter]
    refine List.filter_congr fun id hid => ?_
    rw [hg id hid, settle]
    split <;> simp
  obtain ⟨id, hid, m, hm, hne⟩ : ∃ id ∈ a.liveIds, ∃ m,
      splitOff a (mates a f (f id)) = some m ∧ m.index ≠ f id := by
    unfold Stable at h
    push Not at h
    exact h
  obtain ⟨hlive, hroot⟩ := mem_mates.mp (splitOff_mem hm).1
  rw [hsub, List.length_filter_lt_length_iff_exists]
  refine ⟨m, ?_, ?_⟩
  · simpa [strays, hlive, hroot] using Ne.symm hne
  · have hsettle : settle a f m = m.index := by rw [settle, hroot, if_pos hm]
    simp [hg m hlive, hsettle]

theorem repairRounds_succ (rounds : Nat) :
    repairRounds a a.liveIds (rounds + 1) parent =
      if ((groupLive a.liveIds parent).2.foldl (splitGroup a)
          ((groupLive a.liveIds parent).1, false)).2 then
        repairRounds a a.liveIds rounds ((groupLive a.liveIds parent).2.foldl (splitGroup a)
          ((groupLive a.liveIds parent).1, false)).1
      else ((groupLive a.liveIds parent).2.foldl (splitGroup a)
          ((groupLive a.liveIds parent).1, false)).1 := rfl

theorem repairRounds_of_stable {rounds : Nat} (h : Descending parent)
    (hlength : parent.length = a.slotCount) (hs : Stable a (rootOf parent)) :
    Stable a (rootOf (repairRounds a a.liveIds rounds parent)) := by
  induction rounds generalizing parent with
  | zero => exact hs
  | succ rounds ih =>
    obtain ⟨hdesc, hlen, hroots, -⟩ := round_spec h hlength
    have hnext := stable_congr (fun id hid => (hroots id hid).trans (settle_of_stable hs hid)) hs
    rw [repairRounds_succ]
    split
    · exact ih hdesc hlen hnext
    · exact hnext

/-- With a round for each node that is not its own root, nothing is left to
take out. -/
theorem repairRounds_stable {rounds : Nat} (h : Descending parent)
    (hlength : parent.length = a.slotCount)
    (hrounds : (strays a (rootOf parent)).length ≤ rounds) :
    Stable a (rootOf (repairRounds a a.liveIds rounds parent)) := by
  induction rounds generalizing parent with
  | zero => exact stable_of_strays (Nat.le_zero.mp hrounds)
  | succ rounds ih =>
    by_cases hs : Stable a (rootOf parent)
    · exact repairRounds_of_stable h hlength hs
    obtain ⟨hdesc, hlen, hroots, hfalse⟩ := round_spec h hlength
    have hfewer := strays_settle hs hroots
    rw [repairRounds_succ]
    split
    · exact ih hdesc hlen (by omega)
    · next hchanged =>
      exact absurd (stable_of_none (hfalse (Bool.eq_false_iff.mpr hchanged))) hs

-- ---------------------------------------------------------------------------
-- What stays with a root
-- ---------------------------------------------------------------------------

/-- Roots `g` that repair leaves of the roots `f`: a node keeps its root or
becomes its own, and the nodes no larger than their root stay with it. -/
structure Kept (a : IrArena) (f g : NodeId → Nat) : Prop where
  own : ∀ id ∈ a.liveIds, g id = f id ∨ g id = id.index
  small : ∀ top ∈ a.liveIds, f top = top.index → ∀ id ∈ a.liveIds, f id = top.index →
    nodeBytes a id ≤ nodeBytes a top → g id = top.index

theorem mates_sorted (a : IrArena) (f : NodeId → Nat) (r : Nat) :
    (mates a f r).Pairwise (·.index < ·.index) := (liveIds_sorted a).filter _

/-- A live root comes first in its group. -/
theorem mates_eq_cons (hle : ∀ id ∈ a.liveIds, g id ≤ id.index) (hm : m ∈ a.liveIds)
    (hroot : g m = m.index) : ∃ ms, mates a g m.index = m :: ms := by
  have hmem : m ∈ mates a g m.index := mem_mates.mpr ⟨hm, hroot⟩
  have hsorted := mates_sorted a g m.index
  cases hms : mates a g m.index with
  | nil =>
    rw [hms] at hmem
    cases hmem
  | cons x ms =>
    rw [hms] at hmem hsorted
    rcases List.mem_cons.mp hmem with rfl | hmem
    · exact ⟨ms, rfl⟩
    · have hlt := (List.pairwise_cons.mp hsorted).1 m hmem
      obtain ⟨hx, hgx⟩ := mem_mates.mp (hms ▸ List.mem_cons_self : x ∈ mates a g m.index)
      have hxle := hle x hx
      omega

theorem kept_settle (h : Kept a f g) (hle : ∀ id ∈ a.liveIds, g id ≤ id.index)
    {g' : NodeId → Nat} (hg : ∀ id ∈ a.liveIds, g' id = settle a g id) : Kept a f g' where
  own id hid := by
    rw [hg id hid, settle]
    split
    · exact .inr rfl
    · exact h.own id hid
  small top htop hroot id hid hf hsmall := by
    have hid' := h.small top htop hroot id hid hf hsmall
    have htop' := h.small top htop hroot top htop hroot (Nat.le_refl _)
    rw [hg id hid, settle, hid']
    split
    · next hsplit =>
      obtain ⟨ms, hms⟩ := mates_eq_cons hle htop htop'
      have hres := @exists_node_of_mates a g top.index
      rw [hms] at hsplit hres
      obtain ⟨-, rfl | hlt, -⟩ := splitOff_cons hres hsplit
      · rfl
      · omega
    · rfl

theorem rootOf_le (h : Descending parent) : rootOf parent id ≤ id.index := h.root_le _

theorem kept_repairRounds {rounds : Nat} (h : Descending parent)
    (hlength : parent.length = a.slotCount) (hk : Kept a f (rootOf parent)) :
    Kept a f (rootOf (repairRounds a a.liveIds rounds parent)) := by
  induction rounds generalizing parent with
  | zero => exact hk
  | succ rounds ih =>
    obtain ⟨hdesc, hlen, hroots, -⟩ := round_spec h hlength
    have hnext := kept_settle hk (fun _ _ => rootOf_le h) hroots
    rw [repairRounds_succ]
    split
    · exact ih hdesc hlen hnext
    · exact hnext

/-- The members of the root's group that are no larger than it. -/
def noLarger (a : IrArena) (f : NodeId → Nat) (top : NodeId) : List NodeId :=
  (mates a f top.index).filter (nodeBytes a · ≤ nodeBytes a top)

theorem bytesOf_sublist {l l' : List NodeId} (h : l.Sublist l') : bytesOf a l ≤ bytesOf a l' := by
  induction h with
  | slnil => exact Nat.le_refl _
  | cons x _ ih =>
    simp only [bytesOf, List.map_cons, List.sum_cons] at ih ⊢
    omega
  | cons_cons x _ ih =>
    simp only [bytesOf, List.map_cons, List.sum_cons] at ih ⊢
    omega

/-- Within the budget, or of one node. -/
def Fits (a : IrArena) (ms : List NodeId) : Prop :=
  2 ≤ ms.length → bytesOf a ms ≤ SHARED_MEM_BUDGET_BYTES

theorem Fits.of_sublist {l l' : List NodeId} (h : Fits a l') (hsub : l.Sublist l') : Fits a l :=
  fun hlen => (bytesOf_sublist hsub).trans (h (hlen.trans hsub.length_le))

theorem fits_iff (hk : Kept a f g) (hs : Stable a g) (hle : ∀ id ∈ a.liveIds, g id ≤ id.index)
    (htop : ∀ id ∈ a.liveIds, ∀ top ∈ a.liveIds, f id = top.index → f top = top.index) :
    (∀ r, Fits a (mates a g r)) ↔
      ∀ top ∈ a.liveIds, f top = top.index → Fits a (noLarger a f top) := by
  constructor
  · intro hall top hlive hroot
    refine (hall top.index).of_sublist ?_
    have heq : noLarger a f top = (mates a g top.index).filter fun id =>
        f id = top.index ∧ nodeBytes a id ≤ nodeBytes a top := by
      rw [noLarger, mates, mates, List.filter_filter, List.filter_filter]
      refine List.filter_congr fun id hid => ?_
      have hsmall := hk.small top hlive hroot id hid
      simp only [← Bool.decide_and, decide_eq_decide]
      tauto
    rw [heq]
    exact List.filter_sublist
  · intro hall r hlen
    by_contra hover
    have hres := @exists_node_of_mates a g r
    obtain ⟨m, hm⟩ : ∃ m, splitOff a (mates a g r) = some m :=
      Option.ne_none_iff_exists'.mp (mt (splitOff_none hres).mp hover)
    obtain ⟨hmem, hmax⟩ := splitOff_mem hm
    obtain ⟨hlive, hgm⟩ := mem_mates.mp hmem
    have hmr : m.index = r := hgm ▸ hs m hlive m (hgm.symm ▸ hm)
    subst hmr
    obtain ⟨ms, hms⟩ := mates_eq_cons hle hlive hgm
    have hf : ∀ y ∈ mates a g m.index, y ≠ m → f y = m.index := by
      intro y hy hne
      obtain ⟨hylive, hgy⟩ := mem_mates.mp hy
      rcases hk.own y hylive with hown | hown
      · rw [← hown, hgy]
      · exact absurd (eq_of_index hylive hlive (hown.symm.trans hgy)) hne
    have hfm : f m = m.index := by
      have hsorted := mates_sorted a g m.index
      cases ms with
      | nil => simp [hms] at hlen
      | cons y ms =>
        have hy : y ∈ mates a g m.index := by simp [hms]
        rw [hms] at hsorted
        have hlt := (List.pairwise_cons.mp hsorted).1 y List.mem_cons_self
        have hne : y ≠ m := by
          rintro rfl
          omega
        exact htop y (mem_mates.mp hy).1 m hlive (hf y hy hne)
    have heq : mates a g m.index = (noLarger a f m).filter (g · = m.index) := by
      rw [noLarger, mates, mates, List.filter_filter, List.filter_filter]
      refine List.filter_congr fun id hid => ?_
      have hin : g id = m.index → f id = m.index ∧ nodeBytes a id ≤ nodeBytes a m := by
        intro hgid
        have hmates := mem_mates.mpr ⟨hid, hgid⟩
        refine ⟨?_, hmax id hmates⟩
        by_cases hidm : id = m
        · exact hidm ▸ hfm
        · exact hf id hmates hidm
      simp only [← Bool.decide_and, decide_eq_decide]
      tauto
    have hfits := (hall m hlive hfm).of_sublist (heq ▸ List.filter_sublist)
    exact hover (hfits hlen)

-- ---------------------------------------------------------------------------
-- Universes
-- ---------------------------------------------------------------------------

/-- The members of each group that are no larger than its root fit. -/
def Repairable (a : IrArena) (u : Universe) : Prop :=
  ∀ top ∈ a.liveIds, fusedLabel a u top.index = top.index →
    Fits a (noLarger a (fun id => fusedLabel a u id.index) top)

theorem fits_membersOf {cs : ClusterSet}
    (h : membersOf cs = (groupsBy g a.liveIds).map (·.2)) :
    (∀ ms ∈ membersOf cs, Fits a ms) ↔ ∀ r, Fits a (mates a g r) := by
  rw [h]
  constructor
  · intro hall r hlen
    have hne : mates a g r ≠ [] := by
      rintro hnil
      rw [hnil] at hlen
      exact absurd hlen (by decide)
    exact hall _ (List.mem_map.mpr ⟨(r, mates a g r), mem_groupsBy.mpr ⟨rfl, hne⟩, rfl⟩) hlen
  · intro hall ms hms
    obtain ⟨⟨r, ms⟩, hgroup, rfl⟩ := List.mem_map.mp hms
    rw [(mem_groupsBy.mp hgroup).1]
    exact hall r

theorem buildUniverse_clusters {currentBest : Nat} {res : UniverseResult}
    (h : buildUniverse a u currentBest = .ok res) :
    materialize a (grouping a u (buildPrunes currentBest)) = .ok res.clusters := by
  simp only [buildUniverse, bind_ok] at h
  obtain ⟨clusters, hclusters, bytes, -, total, -, report, -, hres⟩ := h
  cases hres
  exact hclusters

/-- Where repair starts from and what it leaves. -/
theorem grouping_kept (a : IrArena) (u : Universe) (pruned : Bool) :
    let label := if pruned then fun x => x else fusedLabel a u
    let f := fun id : NodeId => label id.index
    let g := rootOf (grouping a u pruned)
    Kept a f g ∧ Stable a g ∧ (∀ id ∈ a.liveIds, g id ≤ id.index) ∧
      ∀ id ∈ a.liveIds, ∀ top ∈ a.liveIds, f id = top.index → f top = top.index := by
  intro label f g
  have h : Labelled a.slotCount label _ := joined_labelled a u pruned
  have hlabel : ∀ id ∈ a.liveIds, rootOf _ id = f id := fun id hid =>
    h.root _ (index_lt_of_mem_liveIds hid)
  have hstart : Kept a f (rootOf _) :=
    ⟨fun id hid => .inl (hlabel id hid), fun _ _ _ id hid hf _ => (hlabel id hid).trans hf⟩
  refine ⟨kept_repairRounds h.descending h.length hstart,
    repairRounds_stable h.descending h.length (List.length_filter_le _ _),
    fun _ _ => rootOf_le (grouping_spec a u pruned).1, fun id hid top htop hf => ?_⟩
  have hidem := h.idem (index_lt_of_mem_liveIds hid)
  rwa [show label id.index = top.index from hf] at hidem

/-- Repair brings every cluster within the budget exactly when the members no
larger than the root fit in each group that the uses join. -/
theorem repair_fits_iff {currentBest : Nat} {res : UniverseResult} (hslots : a.slotCount ≤ 2 ^ 32)
    (h : buildUniverse a u currentBest = .ok res) :
    (∀ c ∈ res.clusters.clusters, 2 ≤ c.members.length →
      (resourceEstimate a c.members).sharedBytes ≤ SHARED_MEM_BUDGET_BYTES) ↔
      buildPrunes currentBest = true ∨ Repairable a u := by
  obtain ⟨hdesc, hlength, -⟩ := grouping_spec a u (buildPrunes currentBest)
  have hmembers := materialize_members hdesc hlength hslots (buildUniverse_clusters h)
  have hclusters : (∀ c ∈ res.clusters.clusters, 2 ≤ c.members.length →
      (resourceEstimate a c.members).sharedBytes ≤ SHARED_MEM_BUDGET_BYTES) ↔
        ∀ ms ∈ membersOf res.clusters, Fits a ms := by
    simp only [membersOf, List.forall_mem_map, Fits, sharedBytes_le]
  obtain ⟨hk, hs, hle, htop⟩ := grouping_kept a u (buildPrunes currentBest)
  rw [hclusters, fits_membersOf hmembers, fits_iff hk hs hle htop]
  cases hpruned : buildPrunes currentBest with
  | false => simp [Repairable]
  | true =>
    simp only [if_true, true_or, iff_true]
    -- Each node is its own group.
    intro top hlive _ hlen
    have hone : ∀ x ∈ noLarger a (fun id => id.index) top, x = top := by
      intro x hx
      obtain ⟨hx, hindex⟩ := mem_mates.mp (List.mem_filter.mp hx).1
      exact eq_of_index hx hlive hindex
    have hsorted : (noLarger a (fun id => id.index) top).Pairwise (·.index < ·.index) :=
      (mates_sorted ..).filter _
    rcases hl : noLarger a (fun id => id.index) top with _ | ⟨x, _ | ⟨y, ms⟩⟩
    · simp [hl] at hlen
    · simp [hl] at hlen
    · rw [hl] at hone hsorted
      have hlt := (List.pairwise_cons.mp hsorted).1 y List.mem_cons_self
      rw [hone x (by simp), hone y (by simp)] at hlt
      exact absurd hlt (Nat.lt_irrefl _)

/-- A parameter's negation and the negation of that. -/
def negatedTwice (ty : Ty) : IrArena := .built do
  let a := IrArena.withCapacity 4 1
  let (x, a) ← a.insertNode a.rootRegion (.new (.param 0) a.rootRegion [] ty)
  let xval ← a.valueOf x 0
  let (y, a) ← a.insertNode a.rootRegion (.new (.unary .neg) a.rootRegion [xval] ty)
  let yval ← a.valueOf y 0
  let (_, a) ← a.insertNode a.rootRegion (.new (.unary .neg) a.rootRegion [yval] ty)
  return a

/-- 512 bytes. -/
def shortRow : Ty := .tensor ⟨.f64, ⟨[64], by decide, by simp, by simp⟩, .rowMajor⟩

/-- 128 KiB. -/
def longRow : Ty := .tensor ⟨.f64, ⟨[16384], by decide, by simp, by simp⟩, .rowMajor⟩

theorem exists_built {currentBest : Nat} {p : UniverseResult → Bool}
    (h : (buildUniverse a u currentBest).toOption.any p = true) :
    ∃ res, buildUniverse a u currentBest = .ok res ∧ p res = true := by
  cases hb : buildUniverse a u currentBest with
  | ok res => exact ⟨res, rfl, by simpa [hb, Except.toOption] using h⟩
  | error e => simp [hb, Except.toOption] at h

/-- Three nodes in one cluster. -/
theorem repair_fits_iff_shortRow : ∃ res,
    buildUniverse (negatedTwice shortRow) .a Saturating.u64Max = .ok res ∧
      res.clusters.clusters.map (·.members.length) = [3] ∧
      ∀ c ∈ res.clusters.clusters, 2 ≤ c.members.length →
        (resourceEstimate (negatedTwice shortRow) c.members).sharedBytes ≤
          SHARED_MEM_BUDGET_BYTES := by
  obtain ⟨res, hres, hone⟩ := @exists_built (negatedTwice shortRow) .a Saturating.u64Max
    (fun res => res.clusters.clusters.map (·.members.length) = [3]) rfl
  have hrepairable : Repairable (negatedTwice shortRow) .a := by
    unfold Repairable Fits
    decide
  exact ⟨res, hres, by simpa using hone, (repair_fits_iff (by decide) hres).mpr
    (.inr hrepairable)⟩

/-- The first of the largest members is their root, so they stay together. -/
theorem repair_not_fits : verify (negatedTwice longRow) = .ok () ∧ ∃ res,
    buildUniverse (negatedTwice longRow) .a Saturating.u64Max = .ok res ∧
      ∃ c ∈ res.clusters.clusters, 2 ≤ c.members.length ∧
        SHARED_MEM_BUDGET_BYTES <
          (resourceEstimate (negatedTwice longRow) c.members).sharedBytes := by
  obtain ⟨res, hres, hover⟩ := @exists_built (negatedTwice longRow) .a Saturating.u64Max
    (fun res => res.clusters.clusters.any fun c => 2 ≤ c.members.length &&
      SHARED_MEM_BUDGET_BYTES <
        (resourceEstimate (negatedTwice longRow) c.members).sharedBytes) rfl
  exact ⟨rfl, res, hres, by simpa using hover⟩

end Fusion

end Sxla
