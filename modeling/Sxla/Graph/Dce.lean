import Sxla.Graph.Gvn

/-!
# Dead code elimination

Rounds over a table of used slots, anchored at the roots' slots. A round
removes every unused pure node; the last one finds none. `rounds` is given
one round more than there are live nodes, and each but the last removes one,
so it never runs out.
-/

namespace Sxla.Dce

open Checked

variable {a b : IrArena} {roots : List NodeId} {id x : NodeId} {n : Node}

/-- Some root, value input or effect input names the slot. -/
def used (a : IrArena) (roots : List NodeId) (slot : Nat) : Bool :=
  roots.any (·.index == slot) ||
    a.liveNodes.any fun (_, n) =>
      n.valueInputs.any (·.node.index == slot) ||
        (!n.effectIn.isNone && n.effectIn.node.index == slot)

def deadNodes (a : IrArena) (roots : List NodeId) : List NodeId :=
  (a.liveNodes.filter fun (id, n) => n.op.isPure && !used a roots id.index).map (·.1)

def removeAll (a : IrArena) (ids : List NodeId) : Except PassError IrArena :=
  ids.foldlM (fun a id => (a.removeNode id).mapError fun _ => .internal) a

def rounds (roots : List NodeId) : Nat → IrArena → Nat → Except PassError (IrArena × Nat)
  | 0, _, _ => .error .internal
  | fuel + 1, a, removed =>
    match deadNodes a roots with
    | [] => .ok (a, removed)
    | dead => do rounds roots fuel (← removeAll a dead) (removed + dead.length)

/-- The arena without its dead nodes and their number. -/
def run (a : IrArena) (roots : List NodeId) : Except PassError (IrArena × Nat) :=
  rounds roots (a.liveSlots.length + 1) a 0

-- ---------------------------------------------------------------------------
-- One round
-- ---------------------------------------------------------------------------

theorem deadNodes_sublist : (deadNodes a roots).Sublist a.liveIds :=
  List.filter_sublist.map _

theorem root_not_dead (hx : x ∈ roots) (hid : id ∈ deadNodes a roots) : id.index ≠ x.index := by
  intro he
  obtain ⟨⟨id, n⟩, hn, rfl⟩ := List.mem_map.mp hid
  have hused : used a roots id.index = true := by
    rw [used, Bool.or_eq_true, List.any_eq_true]
    exact .inl ⟨x, hx, by simpa using he.symm⟩
  simp [hused] at hn

/-- One round ends the handles of the dead nodes and no others, so it keeps
the roots, and it shrinks the live part. -/
theorem removeAll_dead (hd : deadNodes a roots ≠ []) :
    ∃ b, removeAll a (deadNodes a roots) = .ok b ∧ b.liveSlots.length < a.liveSlots.length ∧
      (∀ x, b.IsLive x → a.IsLive x) ∧ ∀ x ∈ roots, a.IsLive x → b.IsLive x := by
  have hlive : ∀ id ∈ deadNodes a roots, a.IsLive id :=
    fun id hid => IrArena.isLive_of_mem_liveIds (deadNodes_sublist.subset hid)
  have hnodup : ((deadNodes a roots).map (·.index)).Nodup :=
    (IrArena.map_index_liveIds a ▸ a.liveSlots_nodup).sublist (deadNodes_sublist.map _)
  obtain ⟨b, hb, hlen, hfree, hlive'⟩ := IrArena.removeAll_spec hlive hnodup
  refine ⟨b, hb, ?_, fun x hx => ((hlive' x).mp hx).1, fun x hx ha => (hlive' x).mpr ⟨ha, ?_⟩⟩
  · obtain ⟨id, hid⟩ := List.exists_mem_of_ne_nil _ hd
    have hsub : b.liveSlots.Sublist (a.liveSlots.filter (· ≠ id.index)) := by
      rw [IrArena.liveSlots, IrArena.liveSlots, hlen, List.filter_filter]
      refine List.monotone_filter_right _ fun i hi => ?_
      have hi := mt (hfree i).mpr (by simpa using hi)
      have hne : i ≠ id.index := by
        rintro rfl
        exact hi (.inl (List.mem_map_of_mem hid))
      simpa [hne] using fun h => hi (.inr h)
    refine lt_of_le_of_lt hsub.length_le ?_
    have hmem : id.index ∈ a.liveSlots := (hlive id hid).index_mem
    exact List.length_filter_lt_length_iff_exists.mpr ⟨id.index, hmem, by simp⟩
  · intro hmem
    obtain ⟨id, hid, he⟩ := List.mem_map.mp hmem
    exact root_not_dead hx hid he

-- ---------------------------------------------------------------------------
-- The run
-- ---------------------------------------------------------------------------

theorem rounds_spec {fuel k : Nat} (hf : a.liveSlots.length < fuel) :
    ∃ b m, rounds roots fuel a k = .ok (b, m) ∧
      (∀ x, b.IsLive x → a.IsLive x) ∧ ∀ x ∈ roots, a.IsLive x → b.IsLive x := by
  induction fuel generalizing a k with
  | zero => omega
  | succ fuel ih =>
    unfold rounds
    split
    · exact ⟨a, k, rfl, fun _ h => h, fun _ _ h => h⟩
    · next hd =>
      obtain ⟨b, hb, hlt, hsub, hkeep⟩ := @removeAll_dead a roots hd
      obtain ⟨c, m, hc, hsub', hkeep'⟩ :=
        ih (a := b) (k := k + (deadNodes a roots).length) (by omega)
      refine ⟨c, m, bind_ok.mpr ⟨b, hb, hc⟩, fun x h => hsub x (hsub' x h), ?_⟩
      exact fun x hx h => hkeep' x hx (hkeep x hx h)

/-- The pass ends, adds nothing and keeps its roots. -/
theorem run_spec : ∃ b k, run a roots = .ok (b, k) ∧
    (∀ x, b.IsLive x → a.IsLive x) ∧ ∀ x ∈ roots, a.IsLive x → b.IsLive x :=
  rounds_spec (Nat.lt_succ_self _)

end Sxla.Dce
