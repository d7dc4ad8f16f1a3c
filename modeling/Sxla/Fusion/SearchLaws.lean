import Sxla.Fusion.Joining

/-!
# What repair keeps

Repair only ever makes a node its own root. Grouping leaves every live slot
pointed at its root, so the parent entries that scoring reads and the roots
that building climbs to name the same groups.
-/

namespace Sxla

namespace Fusion

open Checked Saturating Forest

variable {a : IrArena} {parent : List Nat} {live : List NodeId}

-- ---------------------------------------------------------------------------
-- Grouping
-- ---------------------------------------------------------------------------

/-- One live node joins the group of its root. -/
def groupStep (s : List Nat × List (Nat × List NodeId)) (id : NodeId) :
    List Nat × List (Nat × List NodeId) :=
  ((findRoot s.1 id.index).2, insertGroup (findRoot s.1 id.index).1 id s.2)

theorem groupLive_eq : groupLive live parent = live.foldl groupStep (parent, []) := rfl

theorem groupLive_spec (h : Descending parent) (hlive : ∀ id ∈ live, id.index < parent.length) :
    SameRoots parent (groupLive live parent).1 ∧
      ∀ id ∈ live, Flat (groupLive live parent).1 id.index := by
  -- From any groups, and what is flat stays so.
  suffices hfrom : ∀ groups : List (Nat × List NodeId), ∀ parent, Descending parent →
      (∀ id ∈ live, id.index < parent.length) →
      let result := live.foldl groupStep (parent, groups)
      SameRoots parent result.1 ∧ (∀ y, Flat parent y → Flat result.1 y) ∧
        ∀ id ∈ live, Flat result.1 id.index by
    obtain ⟨hsame, -, hflat⟩ := hfrom [] parent h hlive
    rw [groupLive_eq]
    exact ⟨hsame, hflat⟩
  clear h hlive
  induction live with
  | nil => exact fun _ parent h _ => ⟨.refl h, fun _ hy => hy, fun _ hid => absurd hid List.not_mem_nil⟩
  | cons id live ih =>
    intro groups parent h hlive
    obtain ⟨hsame, hflat, hkeeps⟩ := findRoot_spec h (hlive id List.mem_cons_self)
    obtain ⟨hsame', hkeeps', hflat'⟩ := ih
      (insertGroup (findRoot parent id.index).1 id groups) (findRoot parent id.index).2
      hsame.descending fun id' hid' => hsame.length.symm ▸ hlive id' (List.mem_cons_of_mem _ hid')
    refine ⟨hsame.trans hsame', fun y hy => hkeeps' y (hkeeps y hy), ?_⟩
    intro id' hid'
    rcases List.mem_cons.mp hid' with rfl | hid'
    · exact hkeeps' _ hflat
    · exact hflat' id' hid'

theorem splitGroup_spec (h : Descending parent) (changed : Bool) (group : Nat × List NodeId) :
    let result := splitGroup a (parent, changed) group
    Descending result.1 ∧ result.1.length = parent.length ∧
      ∀ y, Flat parent y → Flat result.1 y := by
  unfold splitGroup
  split
  · next node _ =>
    split
    · exact ⟨h.set (Nat.le_refl _), List.length_set, fun y hy => h.flat_set_self hy _⟩
    · exact ⟨h, rfl, fun _ hy => hy⟩
  · exact ⟨h, rfl, fun _ hy => hy⟩

theorem splitGroups_spec (groups : List (Nat × List NodeId)) (h : Descending parent)
    (changed : Bool) :
    let result := groups.foldl (splitGroup a) (parent, changed)
    Descending result.1 ∧ result.1.length = parent.length ∧
      ∀ y, Flat parent y → Flat result.1 y := by
  induction groups generalizing parent changed with
  | nil => exact ⟨h, rfl, fun _ hy => hy⟩
  | cons group groups ih =>
    obtain ⟨hdesc, hlength, hkeeps⟩ := splitGroup_spec (a := a) h changed group
    obtain ⟨hdesc', hlength', hkeeps'⟩ := ih hdesc (splitGroup a (parent, changed) group).2
    exact ⟨hdesc', hlength'.trans hlength, fun y hy => hkeeps' y (hkeeps y hy)⟩

/-- One round is enough to leave the live slots flat, and each is. -/
theorem repairRounds_spec {rounds : Nat} (h : Descending parent)
    (hlive : ∀ id ∈ live, id.index < parent.length) :
    Descending (repairRounds a live rounds parent) ∧
      (repairRounds a live rounds parent).length = parent.length ∧
      (rounds ≠ 0 → ∀ id ∈ live, Flat (repairRounds a live rounds parent) id.index) := by
  induction rounds generalizing parent with
  | zero => exact ⟨h, rfl, fun hne => absurd rfl hne⟩
  | succ rounds ih =>
    obtain ⟨hsame, hflat⟩ := groupLive_spec h hlive
    obtain ⟨hdesc, hlength, hkeeps⟩ :=
      splitGroups_spec (a := a) (groupLive live parent).2 hsame.descending false
    have hlength' := hlength.trans hsame.length
    have hround : repairRounds a live (rounds + 1) parent =
        if ((groupLive live parent).2.foldl (splitGroup a) ((groupLive live parent).1, false)).2 then
          repairRounds a live rounds
            ((groupLive live parent).2.foldl (splitGroup a) ((groupLive live parent).1, false)).1
        else ((groupLive live parent).2.foldl (splitGroup a) ((groupLive live parent).1, false)).1 :=
      rfl
    rw [hround]
    split
    · obtain ⟨hdesc', hlength'', hflat'⟩ := ih hdesc fun id hid => hlength'.symm ▸ hlive id hid
      refine ⟨hdesc', hlength''.trans hlength', fun _ => ?_⟩
      cases rounds with
      | zero => exact fun id hid => hkeeps _ (hflat id hid)
      | succ rounds => exact hflat' (Nat.succ_ne_zero _)
    · exact ⟨hdesc, hlength', fun _ id hid => hkeeps _ (hflat id hid)⟩

theorem grouping_spec (a : IrArena) (u : Universe) (pruned : Bool) :
    Descending (grouping a u pruned) ∧ (grouping a u pruned).length = a.slotCount ∧
      ∀ id ∈ a.liveIds, Flat (grouping a u pruned) id.index := by
  have h := joined_labelled a u pruned
  obtain ⟨hdesc, hlength, hflat⟩ := @repairRounds_spec a _ a.liveIds a.liveIds.length h.descending
    fun id hid => h.length.symm ▸ index_lt_of_mem_liveIds hid
  refine ⟨hdesc, hlength.trans h.length, fun id hid => hflat ?_ id hid⟩
  exact Nat.ne_of_gt (List.length_pos_of_mem hid)

end Fusion

end Sxla
