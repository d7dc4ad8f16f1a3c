import Mathlib
import Sxla.Mss.Emission
import Sxla.Mss.Reproducible

/-!
# The search makes nothing more expensive

A chain keeps the costs of its current candidate and of its elite, and the
elite only changes for one that comes before it in the order of the costs. So
it is with the merge, and what materializing emits are live slots of its
candidate, each once.

`Chain.Taken` leaves open which child a draw gives and whether it is taken.
-/

namespace Sxla.Mss

open Interleave Sxla.Partition

-- ---------------------------------------------------------------------------
-- Materializing
-- ---------------------------------------------------------------------------

namespace Candidate

variable {c : Candidate} {reach : List Bool} {s : Emission} {order : List Nat} {slot : Nat}

def rowWeight (d : NodeDef) : Nat := nodeWeight d.kind d.opcode

/-- The rows weigh what their slots do. -/
theorem Emitted.map_weight (h : c.Emitted reach s order) :
    s.arena.map rowWeight = order.map c.weight := by
  apply List.ext_getElem?
  intro i
  rw [List.getElem?_map, List.getElem?_map]
  cases hi : order[i]? with
  | none =>
    have hnone : s.arena[i]? = none := by
      rw [List.getElem?_eq_none_iff, h.size]
      exact List.getElem?_eq_none_iff.mp hi
    rw [hnone]
    rfl
  | some slot =>
    obtain ⟨l, r, hrow, -, -⟩ := h.rows i slot hi
    rw [hrow]
    rfl

theorem Emitted.sum_weight_le (h : c.Emitted reach s order) :
    (s.arena.map rowWeight).sum ≤ (c.liveSlots.map c.weight).sum := by
  have hsub : order.Subperm c.liveSlots :=
    List.subperm_of_subset h.nodup fun slot hslot => (h.wanted slot hslot).1
  obtain ⟨l, hperm, hl⟩ := hsub
  calc (s.arena.map rowWeight).sum = (order.map c.weight).sum := by rw [h.map_weight]
    _ = (l.map c.weight).sum := ((hperm.map c.weight).sum_eq).symm
    _ ≤ (c.liveSlots.map c.weight).sum := (hl.map c.weight).sum_le_sum fun w _ => Nat.zero_le w

/-- The total of a program is at most what its rows weigh. -/
theorem fromProgram_total_le (p : Program) :
    (fromProgram p).cost.total ≤ (p.arena.map rowWeight).sum := by
  have hslots : (fromProgram p).slots ≤ p.arena.length := Nat.mod_le ..
  have hweight : (List.range (fromProgram p).slots).map (fromProgram p).weight =
      (p.arena.take (fromProgram p).slots).map rowWeight := by
    apply List.ext_getElem?
    intro i
    rw [List.getElem?_map, List.getElem?_map, List.getElem?_take]
    by_cases hi : i < (fromProgram p).slots
    · have hlen := hi.trans_le hslots
      have hview : (fromProgram p).view i = p.arena[i] := by
        have hbase : (fromProgram p).view i = (fromProgram p).baseDef i := rfl
        have hin : i < (fromProgram p).baseLen := hi
        rw [hbase, baseDef, if_pos hin]
        exact (List.getD_eq_getElem?_getD ..).trans (by
          rw [fromProgram, List.getElem?_eq_getElem hlen]; rfl)
      rw [List.getElem?_range hi, if_pos hi, List.getElem?_eq_getElem hlen]
      rw [Option.map_some, Option.map_some, weight, hview]
      rfl
    · rw [if_neg hi, List.getElem?_eq_none (by rw [List.length_range]; exact Nat.le_of_not_lt hi)]
      rfl
  rw [cost_total]
  calc ((fromProgram p).liveSlots.map (fromProgram p).weight).sum
      ≤ ((List.range (fromProgram p).slots).map (fromProgram p).weight).sum :=
        (List.filter_sublist.map _).sum_le_sum fun w _ => Nat.zero_le w
    _ = ((p.arena.take (fromProgram p).slots).map rowWeight).sum := by rw [hweight]
    _ ≤ (p.arena.map rowWeight).sum :=
        ((List.take_sublist ..).map _).sum_le_sum fun w _ => Nat.zero_le w

/-- Materializing adds nothing to the total. -/
theorem materialize_total_le (c : Candidate) :
    (fromProgram c.materialize).cost.total ≤ c.cost.total := by
  obtain ⟨order, h, -⟩ := c.emitted_spec
  rw [c.cost_total]
  exact (fromProgram_total_le _).trans h.sum_weight_le

end Candidate

-- ---------------------------------------------------------------------------
-- The chains and their merge
-- ---------------------------------------------------------------------------

/-- By total, then by depth. -/
def Cost.AtMost (a b : Cost) : Prop := a.total < b.total ∨ (a.total = b.total ∧ a.depth ≤ b.depth)

theorem Cost.AtMost.refl (a : Cost) : a.AtMost a := .inr ⟨rfl, Nat.le_refl _⟩

theorem Cost.AtMost.trans {a b d : Cost} (h : a.AtMost b) (h' : b.AtMost d) : a.AtMost d := by
  unfold Cost.AtMost at *
  omega

theorem Cost.AtMost.total_le {a b : Cost} (h : a.AtMost b) : a.total ≤ b.total := by
  rcases h with h | h
  · exact h.le
  · exact h.1.le

theorem atMost_of_strict {ca cb : Cost} {a b : Candidate}
    (h : candidateOrderStrict ca cb a b = true) : ca.AtMost cb := by
  rcases of_decide_eq_true h with h | ⟨h, h' | h'⟩
  · exact .inl h
  · exact .inr ⟨h, h'.le⟩
  · exact .inr ⟨h, h'.1.le⟩

variable {seed : Candidate} {s : Chain}

namespace Chain

/-- The chains of a band, whatever it draws and whatever it takes. Between two
moves the generator, the hashes seen and the counters change. -/
inductive Taken (seed : Candidate) : Chain → Prop
  | start (band : Band) : Taken seed (.start seed band)
  | skip {s : Chain} (h : Taken seed s) (rng : Rng) (seen : List UInt64)
      (generated pruned nodesTouched : Nat) :
      Taken seed { s with
        rng
        seen
        result := { s.result with generated, pruned, nodesTouched } }
  | move {s : Chain} {child : Candidate} (h : Taken seed s) (family : MutationFamily) (rng : Rng)
      (hchild : (s.current.apply family rng).1 = some child) : Taken seed (s.move child)

/-- The costs that a chain keeps are those of its candidates. -/
structure Improves (seed : Candidate) (s : Chain) : Prop where
  current : s.currentCost = s.current.cost
  elite : s.result.eliteCost = s.result.elite.cost
  atMost : s.result.eliteCost.AtMost seed.cost

theorem Improves.move (h : Improves seed s) (child : Candidate) : Improves seed (s.move child) := by
  unfold Chain.move
  dsimp only
  by_cases hbetter : candidateOrderStrict child.cost s.result.eliteCost child s.result.elite = true
  · rw [if_pos hbetter]
    exact ⟨rfl, rfl, (atMost_of_strict hbetter).trans h.atMost⟩
  · rw [if_neg hbetter]
    exact ⟨rfl, h.elite, h.atMost⟩

theorem Taken.improves (h : Taken seed s) : Improves seed s := by
  induction h with
  | start band => exact ⟨rfl, rfl, .refl _⟩
  | skip _ _ _ _ _ _ ih => exact ⟨ih.current, ih.elite, ih.atMost⟩
  | move _ _ _ _ ih => exact ih.move _

end Chain

/-- A band's elite costs what is recorded, and at most what the seed does. -/
structure BandResult.Improves (seed : Candidate) (r : BandResult) : Prop where
  cost : r.eliteCost = r.elite.cost
  atMost : r.eliteCost.AtMost seed.cost

theorem foldl_keepBetter {P : BandResult → Prop} {results : List BandResult}
    {best : Option BandResult} (hbest : ∀ r, best = some r → P r) (hall : ∀ r ∈ results, P r) :
    ∀ r, results.foldl keepBetter best = some r → P r := by
  induction results generalizing best with
  | nil => exact hbest
  | cons first results ih =>
    rw [List.forall_mem_cons] at hall
    rw [List.foldl_cons]
    refine ih ?_ hall.2
    intro r hr
    cases best with
    | none =>
      cases hr
      exact hall.1
    | some cur =>
      unfold keepBetter at hr
      dsimp only at hr
      split at hr
      · cases hr
        exact hall.1
      · cases hr
        exact hbest _ rfl

/-- The merge keeps one of the results, or the placeholder. -/
theorem merged {P : BandResult → Prop} {results : List BandResult} (hseed : P (placeholder seed))
    (hall : ∀ r ∈ results, P r) :
    P ((results.foldl keepBetter none).getD (placeholder seed)) := by
  cases hfold : results.foldl keepBetter none with
  | none => exact hseed
  | some r => exact foldl_keepBetter (fun r hr => by cases hr) hall r hfold

/-- The best candidate costs what is reported, at most what the seed does, and
its materialized program no more. -/
structure SearchOutcome.Improves (p : Program) (o : SearchOutcome) : Prop where
  cost : o.bestCost = o.best.cost
  atMost : o.bestCost.AtMost (Candidate.fromProgram p).cost
  materialized :
    (Candidate.fromProgram o.best.materialize).cost.total ≤ (Candidate.fromProgram p).cost.total

theorem outcome_improves {p : Program} {results : List BandResult}
    (hall : ∀ r ∈ results, r.Improves (.fromProgram p)) :
    (outcome (.fromProgram p) results).Improves p := by
  have hbest := merged (P := BandResult.Improves (.fromProgram p)) ⟨rfl, .refl _⟩ hall
  refine ⟨hbest.cost, hbest.atMost, (Candidate.materialize_total_le _).trans ?_⟩
  have hcost : (outcome (.fromProgram p) results).bestCost =
      (outcome (.fromProgram p) results).best.cost := hbest.cost
  rw [← hcost]
  exact hbest.atMost.total_le

-- ---------------------------------------------------------------------------
-- What the bands run
-- ---------------------------------------------------------------------------

namespace Chain

variable {libm : Libm} {band : Band}

/-- The child comes from a draw. -/
theorem Taken.filter (h : Taken seed s) {child : Candidate} {family : MutationFamily} {rng : Rng}
    (hchild : (s.current.apply family rng).1 = some child) :
    Taken seed (Chain.filter libm band s child) := by
  unfold Chain.filter
  dsimp only
  by_cases hlegal : (!child.tier0Legal) = true
  · rw [if_pos hlegal]
    exact h.skip s.rng s.seen s.result.generated s.result.pruned _
  rw [if_neg hlegal]
  split
  · exact h.skip s.rng s.seen s.result.generated _ _
  · unfold Chain.weigh
    dsimp only
    have hskip := fun rng nodesTouched => h.skip rng (child.canonicalHash :: s.seen)
      (s.result.generated + 1) s.result.pruned nodesTouched
    split
    · exact Taken.move (hskip _ _) family rng hchild
    · exact hskip _ _

theorem Taken.iteration (h : Taken seed s) : Taken seed (Chain.iteration libm band s) := by
  rcases hdraw : draw s.current s.rng with ⟨child | child, next⟩
  · rw [iteration_none hdraw]
    exact h.skip next s.seen s.result.generated s.result.pruned s.result.nodesTouched
  · rw [iteration_some hdraw]
    have hskip := h.skip next s.seen s.result.generated s.result.pruned s.result.nodesTouched
    exact Taken.filter hskip (congrArg Prod.fst hdraw)

theorem Taken.iterations (h : Taken seed s) (count : Nat) :
    Taken seed (Chain.iterations libm band count s) := by
  induction count generalizing s with
  | zero => exact h
  | succ count ih =>
    rw [iterations_succ]
    exact ih h.iteration

end Chain

theorem taken_improves {r : BandResult} (h : ∃ s, Chain.Taken seed s ∧ s.bandResult = r) :
    r.Improves seed := by
  obtain ⟨s, hs, rfl⟩ := h
  exact ⟨hs.improves.elite, hs.improves.atMost⟩

/-- What a search returns comes of its bands, run or not. -/
theorem searched_outcome {libm : Libm} {inRegion : Bool} {pool : Pool} {p : Program} {workers : Nat}
    {o : SearchOutcome} (h : Searched libm inRegion pool p workers o) :
    ∃ results, o = outcome (.fromProgram p) results ∧ ∀ r ∈ results, ∃ band, ∃ count ≤ ITERS_PER_BAND,
      ((Chain.start (.fromProgram p) band).iterations libm band count).bandResult = r := by
  rw [searched_iff.mp h, returned]
  split
  · refine ⟨_, rfl, fun r hr => ?_⟩
    obtain ⟨band, -, rfl⟩ := List.mem_map.mp hr
    exact ⟨band, ITERS_PER_BAND, Nat.le_refl _, rfl⟩
  · refine ⟨_, rfl, fun r hr => ?_⟩
    rw [List.eq_of_mem_replicate hr]
    exact ⟨.hot, 0, Nat.zero_le _, rfl⟩

/-- The search makes no program more expensive, whatever the bands draw and
take; what it returns comes of such bands. -/
theorem search_improves (p : Program) :
    (∀ results : List BandResult,
      (∀ r ∈ results, ∃ s, Chain.Taken (.fromProgram p) s ∧ s.bandResult = r) →
      (outcome (.fromProgram p) results).Improves p) ∧
    ∀ libm inRegion pool workers o, Searched libm inRegion pool p workers o → o.Improves p := by
  refine ⟨fun results hall => outcome_improves fun r hr => taken_improves (hall r hr), ?_⟩
  intro libm inRegion pool workers o ho
  obtain ⟨results, rfl, hall⟩ := searched_outcome ho
  apply outcome_improves
  intro r hr
  obtain ⟨band, count, -, rfl⟩ := hall r hr
  exact taken_improves ⟨_, (Chain.Taken.start band).iterations count, rfl⟩

/-- A search over two parameters. -/
theorem search_improves_twoParams : ∃ o, Searched .absent false oneHelper twoParams 2 o ∧
    o.Improves twoParams := by
  obtain ⟨o, ho⟩ : ∃ o, Searched .absent false oneHelper twoParams 2 o :=
    ⟨_, searched_iff.mpr rfl⟩
  exact ⟨o, ho, (search_improves twoParams).2 _ _ _ _ _ ho⟩

end Sxla.Mss
