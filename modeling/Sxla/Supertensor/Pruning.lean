import Sxla.Graph.Verifier
import Sxla.Supertensor.Coverage

/-!
# Pruning and the exhaustive search

A pruned run whose anchors are published unclipped finds what the exhaustive
search finds. Clipping an anchor makes it smaller than the point it stands
for, so it may dominate what that point does not.
-/

namespace Sxla

namespace Search

variable {a : IrArena} {s t : Search}

/-- With unclipped anchors the pruned search and the exhaustive one agree,
whatever their numbers of workers and their interleavings. -/
theorem pruned_eq_exhaustive {m n : Nat}
    (hs : Run (searchOf a m true) (AnchorFits (searchOf a m true)) s)
    (ht : Reachable (searchOf a n false) t) (hsc : s.Conclusive) (htc : t.Conclusive)
    (p : FrontierPoint) :
    p ∈ s.outcome.frontier.points ↔ p ∈ t.outcome.frontier.points := by
  have hpruned := hs.mem_points (searchOf_extracted a m true) (fun _ _ hfit => hfit) hsc p
  -- The exhaustive search never looks at an anchor.
  have hexhaustive := ht.mem_points (searchOf_extracted a n false) (fun _ _ _ => nofun) htc p
  exact hpruned.trans hexhaustive.symm

-- ---------------------------------------------------------------------------
-- Concrete runs
-- ---------------------------------------------------------------------------

/-- Runs to a conclusive state, found by execution. -/
theorem exists_conclusive {cfg : SearchConfig} {meets : Search → SearchAction → Prop}
    [DecidableRel meets] {actions : List SearchAction} {p : Search → Prop} [DecidablePred p]
    (h : ((start cfg).execMeeting cfg meets actions).any (fun s => s.ended &&
      !s.budgetExhausted && !s.merger.frontier.evicted && s.NonePublishedLate && p s) = true) :
    ∃ s, Run cfg meets s ∧ s.Conclusive ∧ p s := by
  obtain ⟨s, hs, hp⟩ := (Option.any_eq_true _ _).mp h
  have hrun := run_execMeeting .start hs
  simp only [Bool.and_eq_true, Bool.not_eq_true', decide_eq_true_eq] at hp
  obtain ⟨⟨⟨⟨hend, hbudget⟩, hcap⟩, hlate⟩, hp⟩ := hp
  have hall : s.AllInserted := fun lane hl => (hrun.flow.received_iff hend hl).mpr (hlate lane hl)
  exact ⟨s, hrun, ⟨hend, hbudget, hcap, hall⟩, hp⟩

/-- A worker takes `k` steps, always with the latest anchor. -/
def workerSteps (w k : Nat) : List SearchAction := List.replicate k (.worker w 0)

def mergerSteps (k : Nat) : List SearchAction := List.replicate k .merger

/-- Sums over the last axis of a parameter. -/
def axisSums (reduced result : Shape) (axis : UInt8) : IrArena := .built do
  let a := IrArena.withCapacity 16 4
  let (x, a) ← a.insertNode a.rootRegion
    (.new (.param 0) a.rootRegion [] (.tensor ⟨.f64, reduced, .rowMajor⟩))
  let xval ← a.valueOf x 0
  let (_, a) ← a.insertNode a.rootRegion
    (.new (.reduce axis .add) a.rootRegion [xval] (.tensor ⟨.f64, result, .rowMajor⟩))
  return a

def rowOfFour : Shape := ⟨[4], by decide, by simp, by simp⟩

/-- A scalar sum has two schedules. -/
def fourSum : IrArena := axisSums rowOfFour .scalar 0

theorem pruned_eq_exhaustive_fourSum : ∃ s t,
    Run (searchOf fourSum 1 true) (AnchorFits (searchOf fourSum 1 true)) s ∧
      Reachable (searchOf fourSum 1 false) t ∧ s.Conclusive ∧ t.Conclusive ∧
      s.outcome.frontier.points ≠ [] ∧
      ∀ p, p ∈ s.outcome.frontier.points ↔ p ∈ t.outcome.frontier.points := by
  obtain ⟨s, hs, hsc, hp⟩ := @exists_conclusive (searchOf fourSum 1 true)
    (AnchorFits (searchOf fourSum 1 true)) _ (workerSteps 0 5 ++ mergerSteps 8)
    (·.outcome.frontier.points ≠ []) _ (by decide)
  obtain ⟨t, ht, htc, _⟩ := @exists_conclusive (searchOf fourSum 1 false) (fun _ _ => True) _
    (workerSteps 0 5 ++ mergerSteps 8) (fun _ => True) _ (by decide)
  exact ⟨s, t, hs, ht, hsc, htc, hp, pruned_eq_exhaustive hs ht hsc htc⟩

/-- Reads more than the anchor's fields can count. -/
def wideRows : Shape := ⟨[8, 8, 8, 32768], by decide, by simp, by simp⟩

def cube : Shape := ⟨[8, 8, 8], by decide, by simp, by simp⟩

def wideSum : IrArena := axisSums wideRows cube 3

/-- The clipped anchor is published before the worker polls. -/
def clippedRun : List SearchAction :=
  workerSteps 0 64 ++ mergerSteps 6 ++ workerSteps 0 453 ++ mergerSteps 13

set_option maxRecDepth 10000 in
theorem wideSum_pruned : ∃ s, Reachable (searchOf wideSum 1 true) s ∧ s.Conclusive ∧
    s.outcome.frontier.points.all (·.cost.sramUsage = 0) = true :=
  @exists_conclusive (searchOf wideSum 1 true) (fun _ _ => True) _ clippedRun _ _
    (by decide +kernel)

set_option maxRecDepth 10000 in
theorem wideSum_exhaustive : ∃ t, Reachable (searchOf wideSum 1 false) t ∧ t.Conclusive ∧
    t.outcome.frontier.points.any (·.cost.sramUsage = 4096) = true :=
  @exists_conclusive (searchOf wideSum 1 false) (fun _ _ => True) _
    (workerSteps 0 515 ++ mergerSteps 23) _ _ (by decide +kernel)

theorem wideSum_pruned_ne_exhaustive : verify wideSum = .ok () ∧ ∃ s t,
    Reachable (searchOf wideSum 1 true) s ∧ Reachable (searchOf wideSum 1 false) t ∧
      s.Conclusive ∧ t.Conclusive ∧
      ∃ p, p ∈ t.outcome.frontier.points ∧ p ∉ s.outcome.frontier.points := by
  obtain ⟨s, hs, hsc, hsp⟩ := wideSum_pruned
  obtain ⟨t, ht, htc, htp⟩ := wideSum_exhaustive
  simp only [decide_eq_true_eq, List.all_eq_true, List.any_eq_true] at hsp htp
  obtain ⟨p, hp, hsram⟩ := htp
  refine ⟨by decide, s, t, hs, ht, hsc, htc, p, hp, fun hmem => ?_⟩
  have hzero := hsp p hmem
  omega

end Search

end Sxla
