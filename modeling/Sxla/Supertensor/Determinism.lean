import Sxla.Supertensor.Soundness

/-!
# When the superoptimizer's answer is determined

Two searches that explore everything and lose nothing collect the same
points, and the gate and the bridge look at the set of points only. Budgets,
evictions, late records and clipped anchors are all that can tell two runs
apart.
-/

namespace Sxla

/-- The result without its advisory counts. -/
def SuperOutcome.answer (r : SuperOutcome) :
    ClusterSet × List (UInt32 × UInt32) × CostPoint × List TileHint :=
  (r.clusters, r.edges, r.bestCost, r.tileHints)

namespace Search

variable {a : IrArena} {cfg : SearchConfig} {s t : Search} {m n : Nat}

/-- No channel was published to since the merger last looked at it, when it
ends. -/
def ClosesInTime (cfg : SearchConfig) (s : Search) (action : SearchAction) : Prop :=
  action = .merger → s.merger.phase = .checking → s.merger.got = 0 → s.done = cfg.nWorkers →
    s.NonePublishedLate

/-- No worker has given up, nothing was evicted, the anchor is not published
clipped and no record is left behind. -/
def Determined (cfg : SearchConfig) (s : Search) (action : SearchAction) : Prop :=
  AnchorFits cfg s action ∧ ClosesInTime cfg s action ∧ s.budgetExhausted = false ∧
    s.merger.frontier.evicted = false

instance (cfg : SearchConfig) : DecidableRel (Determined cfg) := fun s action => by
  unfold Determined ClosesInTime
  infer_instance

theorem drain_not_ended (k : Nat) : (s.drain k).ended = false := by
  unfold drain
  split
  · rfl
  · split <;> rfl

/-- Such a run ends conclusively. -/
theorem Run.conclusive (h : Run cfg (Determined cfg) s) (hend : s.ended = true) :
    s.Conclusive := by
  cases h with
  | start => cases hend
  | @step u _ action hrun hm hs =>
    obtain ⟨_, hclose, hbudget, hcap⟩ := hm
    rcases step_cases hs with ⟨w, seen, lane, lane', rfl, hl, hlane, rfl⟩ |
      ⟨rfl, ⟨k, hk, rfl⟩ | ⟨hc, rfl⟩ | ⟨_, rfl⟩⟩
    · -- Every worker has ended before the merger does.
      have hphase := hrun.flow.all_ended hend lane (List.mem_of_getElem? hl)
      have hbusy := (Lane.step_ended hlane).1
      simp [Lane.hasEnded, hphase] at hbusy
    · rw [drain_not_ended] at hend
      cases hend
    · have hlast : u.merger.got = 0 ∧ u.done = cfg.nWorkers := by
        by_contra hopen
        simp [Search.check, hopen, Search.ended, setPhase] at hend
      have hlate := hclose rfl hc hlast.1 hlast.2
      exact ⟨hend, hbudget, hcap, fun lane hl =>
        ((hrun.flow.check hc).received_iff hend hl).mpr (hlate lane hl)⟩
    · cases hend

/-- Both runs end with the same points. -/
theorem Run.points_perm (hs : Run (searchOf a m true) (Determined (searchOf a m true)) s)
    (ht : Run (searchOf a n true) (Determined (searchOf a n true)) t)
    (hse : s.ended = true) (hte : t.ended = true) :
    s.outcome.frontier.points.Perm t.outcome.frontier.points := by
  have hsc := hs.conclusive hse
  have htc := ht.conclusive hte
  have hsp := hs.mem_points (searchOf_extracted a m true) (fun _ _ hm => hm.1) hsc
  have htp := ht.mem_points (searchOf_extracted a n true) (fun _ _ hm => hm.1) htc
  have hsn := (hs.collects.skyline hsc.2.2.1).nodup
  have htn := (ht.collects.skyline htc.2.2.1).nodup
  exact (List.perm_ext_iff_of_nodup hsn htn).mpr fun p => (hsp p).trans (htp p).symm

/-- The schedule of a point determines its cost. -/
theorem Run.cost_eq {meets : Search → SearchAction → Prop} (h : Run cfg meets s) :
    ∀ x ∈ s.outcome.frontier.points, ∀ y ∈ s.outcome.frontier.points,
      x.sched = y.sched → x = y := by
  intro x hx y hy hxy
  obtain ⟨c, _, _, rfl⟩ := h.collects.inserted_offered h.flow (h.collects.points x hx)
  obtain ⟨d, _, _, rfl⟩ := h.collects.inserted_offered h.flow (h.collects.points y hy)
  have hcd : c = d := hxy
  rw [hcd]

/-- The worker runs between the merger's look at its channel and the load of
`done`. -/
def overtakenSum : List SearchAction := mergerSteps 2 ++ workerSteps 0 5 ++ mergerSteps 1

end Search

end Sxla
