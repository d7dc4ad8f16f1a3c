import Sxla.Mss.Search

/-!
# When two searches agree

A region of at most `MAX_WORKERS` workers leaves every band's result in its
place, so what the search returns is a function of the seed. A larger count
is refused, and the search returns the seed with its counters at 0: the same
only where no draw of any band applies to the seed.
-/

namespace Sxla.Mss

open Interleave Sxla.Partition

variable {libm : Libm} {band : Band} {seed c : Candidate} {s : Chain} {rng : Rng}

-- ---------------------------------------------------------------------------
-- Chains that move
-- ---------------------------------------------------------------------------

namespace Chain

/-- None of so many draws applies to the candidate. -/
def Stuck (c : Candidate) : Nat → Rng → Prop
  | 0, _ => True
  | count + 1, rng => ∃ next, draw c rng = (none, next) ∧ Stuck c count next

@[simp] theorem touch_touched {n : Nat} :
    (s.touch n).result.nodesTouched = s.result.nodesTouched + n := rfl

@[simp] theorem move_touched {child : Candidate} :
    (s.move child).result.nodesTouched = s.result.nodesTouched := by
  simp only [move]
  generalize candidateOrderStrict _ _ _ _ = better
  cases better <;> rfl

theorem weigh_touched {child : Candidate} :
    (weigh libm band s child).result.nodesTouched =
      s.result.nodesTouched + child.slotCount := by
  simp only [weigh]
  generalize metropolis _ _ _ _ _ = choice
  obtain ⟨accept, rng⟩ := choice
  cases accept
  · rfl
  · exact move_touched

theorem filter_touched {child : Candidate} :
    s.result.nodesTouched + (child.slotCount + s.current.slotCount) ≤
      (filter libm band s child).result.nodesTouched := by
  simp only [filter]
  by_cases hlegal : (!child.tier0Legal) = true
  · rw [if_pos hlegal]
    exact Nat.le_refl _
  rw [if_neg hlegal]
  generalize ht : (s.touch (child.slotCount + s.current.slotCount)).touch child.slotCount = t
  have hle : s.result.nodesTouched + (child.slotCount + s.current.slotCount) ≤
      t.result.nodesTouched := by
    rw [← ht, touch_touched, touch_touched]
    exact Nat.le_add_right ..
  by_cases hseen : t.seen.contains child.canonicalHash = true
  · rw [if_pos hseen]
    exact hle
  · rw [if_neg hseen, weigh_touched]
    exact Nat.le_add_right_of_le hle

theorem iteration_none {next : Rng} (h : draw s.current s.rng = (none, next)) :
    iteration libm band s = { s with rng := next } :=
  congrArg (advance libm band s) h

theorem iteration_some {next : Rng} {child : Candidate}
    (h : draw s.current s.rng = (some child, next)) :
    iteration libm band s = filter libm band { s with rng := next } child :=
  congrArg (advance libm band s) h

theorem iteration_touched : s.result.nodesTouched ≤
    (iteration libm band s).result.nodesTouched := by
  rcases hdraw : draw s.current s.rng with ⟨child | child, next⟩
  · rw [iteration_none hdraw]
  · rw [iteration_some hdraw]
    have htouched := @filter_touched libm band { s with rng := next } child
    exact Nat.le_trans (Nat.le_add_right ..) htouched

theorem iterations_succ {count : Nat} :
    iterations libm band (count + 1) s = iterations libm band count (iteration libm band s) :=
  Function.iterate_succ_apply ..

theorem iterations_touched {count : Nat} : s.result.nodesTouched ≤
    (iterations libm band count s).result.nodesTouched := by
  induction count generalizing s with
  | zero => exact Nat.le_refl _
  | succ count ih =>
    rw [iterations_succ]
    exact Nat.le_trans iteration_touched (@ih (iteration libm band s))

/-- A chain whose draws all fail stays where it is. -/
theorem iterations_stuck {count : Nat} (h : Stuck s.current count s.rng) :
    (iterations libm band count s).bandResult = s.bandResult := by
  induction count generalizing s with
  | zero => rfl
  | succ count ih =>
    obtain ⟨next, hdraw, hrest⟩ := h
    rw [iterations_succ, iteration_none hdraw]
    exact @ih { s with rng := next } hrest

/-- A chain with a draw that applies touches nodes. -/
theorem iterations_moves {count : Nat} (hpos : 0 < s.current.slotCount)
    (h : ¬ Stuck s.current count s.rng) :
    s.result.nodesTouched < (iterations libm band count s).bandResult.nodesTouched := by
  induction count generalizing s with
  | zero => exact absurd trivial h
  | succ count ih =>
    rw [iterations_succ]
    rcases hdraw : draw s.current s.rng with ⟨child | child, next⟩
    · rw [iteration_none hdraw]
      exact @ih { s with rng := next } hpos fun hstuck => h ⟨next, hdraw, hstuck⟩
    · rw [iteration_some hdraw]
      have htouched := @filter_touched libm band { s with rng := next } child
      have hrest := @iterations_touched libm band (filter libm band { s with rng := next } child)
        count
      simp only at htouched
      have hpos' : s.result.nodesTouched <
          s.result.nodesTouched + (child.slotCount + s.current.slotCount) := by omega
      exact Nat.lt_of_lt_of_le hpos' (Nat.le_trans htouched hrest)

end Chain

/-- No draw of any band applies to the seed. -/
def Inert (seed : Candidate) : Prop :=
  ∀ band ∈ BANDS, Chain.Stuck seed ITERS_PER_BAND band.rng

theorem runBand_inert (h : Inert seed) (hb : band ∈ BANDS) :
    runBand libm seed band = placeholder seed :=
  Chain.iterations_stuck (s := .start seed band) (h band hb)

theorem runBand_moves (hpos : 0 < seed.slotCount)
    (h : ¬ Chain.Stuck seed ITERS_PER_BAND band.rng) :
    0 < (runBand libm seed band).nodesTouched :=
  Chain.iterations_moves (s := .start seed band) hpos h

-- ---------------------------------------------------------------------------
-- The region
-- ---------------------------------------------------------------------------

variable {inPooledRegion : Bool} {globalPool : Pool} {p : Program} {workers : Nat}
  {r : SearchOutcome}

/-- What the search finds. -/
def found (libm : Libm) (p : Program) : SearchOutcome :=
  outcome (.fromProgram p) (BANDS.map (runBand libm (.fromProgram p)))

/-- What the search returns where its region is refused. -/
def unsearched (p : Program) : SearchOutcome :=
  outcome (.fromProgram p) (placeholders (.fromProgram p)).items

theorem bandRegion_isMap (h : max workers 1 ≤ MAX_WORKERS) :
    IsMap (fun i => runBand libm seed (BANDS.getD i .hot)) bandIndices (placeholders seed)
      (bandRegion libm inPooledRegion globalPool seed workers) :=
  (partition_isMap _ bandIndices (placeholders seed) (by simp [bandIndices, placeholders])).2.2
    inPooledRegion globalPool _ (Nat.le_max_right ..) h

theorem bandRegion_refused (h : MAX_WORKERS < max workers 1) :
    bandRegion libm inPooledRegion globalPool seed workers = .error (.error .tooManyWorkers) := by
  have hpool : ¬ globalPool.workers = max workers 1 := by
    have hbound : globalPool.workers ≤ MAX_WORKERS := globalPool.bounded
    omega
  have hcount : checkWorkerCount (max workers 1) = .error (.error .tooManyWorkers) := by
    rw [checkWorkerCount, if_neg (by omega), if_pos h]
  simp only [bandRegion, runPartitioned, beq_iff_eq, Bool.and_eq_true, hpool, and_false,
    ↓reduceIte, runPartitionedScoped, hcount]
  rfl

theorem searched_found (h : max workers 1 ≤ MAX_WORKERS) :
    Searched libm inPooledRegion globalPool p workers r ↔ r = found libm p := by
  obtain ⟨stores, hok, _, hmap⟩ := @bandRegion_isMap libm (.fromProgram p) inPooledRegion
    globalPool workers h
  constructor
  · intro hr
    cases hr with
    | @region stores' schedule hok' hs =>
      cases Except.ok.inj (hok.symm.trans hok')
      rw [hmap schedule hs]
      rfl
    | refused herr =>
      rw [hok] at herr
      cases herr
  · rintro rfl
    obtain ⟨schedule, hs⟩ := exists_merges stores
    have hr : Searched libm inPooledRegion globalPool p workers _ := .region hok hs
    rw [hmap schedule hs] at hr
    exact hr

theorem searched_refused (h : MAX_WORKERS < max workers 1) :
    Searched libm inPooledRegion globalPool p workers r ↔ r = unsearched p := by
  constructor
  · intro hr
    cases hr with
    | region hok _ =>
      rw [bandRegion_refused h] at hok
      cases hok
    | refused _ => rfl
  · rintro rfl
    exact .refused (bandRegion_refused h)

/-- What a call returns, whatever the routing and the schedule. -/
def returned (libm : Libm) (p : Program) (workers : Nat) : SearchOutcome :=
  if workers ≤ MAX_WORKERS then found libm p else unsearched p

theorem searched_iff :
    Searched libm inPooledRegion globalPool p workers r ↔ r = returned libm p workers := by
  by_cases h : workers ≤ MAX_WORKERS
  · rw [returned, if_pos h]
    exact searched_found (Nat.max_le.mpr ⟨h, by decide⟩)
  · rw [returned, if_neg h]
    exact searched_refused (Nat.lt_of_lt_of_le (Nat.lt_of_not_le h) (Nat.le_max_left ..))

theorem sum_touched {l : List BandResult} {x : BandResult} (hx : x ∈ l)
    (hpos : 0 < x.nodesTouched) : 0 < (l.map (·.nodesTouched)).sum :=
  Nat.lt_of_lt_of_le hpos (List.single_le_sum (by simp) _ (List.mem_map_of_mem hx))

/-- Only a seed that no draw changes looks the same unsearched. -/
theorem found_eq_unsearched (hpos : 0 < (Candidate.fromProgram p).slotCount) :
    found libm p = unsearched p ↔ Inert (.fromProgram p) := by
  constructor
  · intro heq band hb
    by_contra hmoves
    have htouched : 0 < (found libm p).nodesTouched :=
      sum_touched (List.mem_map_of_mem hb) (runBand_moves hpos hmoves)
    rw [heq] at htouched
    simp [unsearched, outcome, placeholders, placeholder] at htouched
  · intro hinert
    have hbands : BANDS.map (runBand libm (.fromProgram p)) =
        (placeholders (.fromProgram p)).items := by
      refine List.eq_replicate_of_mem fun x hx => ?_
      obtain ⟨band, hb, rfl⟩ := List.mem_map.mp hx
      exact runBand_inert hinert hb
    rw [found, hbands]
    rfl

theorem Program.Built.slotCount_pos (h : p.Built) : 0 < (Candidate.fromProgram p).slotCount := by
  obtain ⟨b, root, _, hfinish⟩ := h
  unfold ProgramBuilder.finish at hfinish
  split at hfinish
  · cases hfinish
  · next hroot =>
    cases hfinish
    simp only [Candidate.fromProgram, Candidate.slotCount]
    omega

theorem returned_eq {workers' : Nat} : returned libm p workers = returned libm p workers' ↔
    (workers ≤ MAX_WORKERS ↔ workers' ≤ MAX_WORKERS) ∨ found libm p = unsearched p := by
  unfold returned
  by_cases hw : workers ≤ MAX_WORKERS <;> by_cases hw' : workers' ≤ MAX_WORKERS
  · simp [hw, hw']
  · simp [hw, hw']
  · simp [hw, hw', eq_comm]
  · simp [hw, hw']

/-- Any two calls return, and they return the same where neither worker count
is refused, where both are, or where no draw of any band applies to the seed. -/
theorem reproducible_iff (libm : Libm) (p : Program) (h : p.Built) (workers workers' : Nat) :
    (∀ inRegion pool n, ∃ r, Searched libm inRegion pool p n r) ∧
    ((∀ inRegion inRegion' pool pool' r r', Searched libm inRegion pool p workers r →
      Searched libm inRegion' pool' p workers' r' → r = r') ↔
      ((workers ≤ MAX_WORKERS ↔ workers' ≤ MAX_WORKERS) ∨ Inert (.fromProgram p))) := by
  refine ⟨fun _ _ _ => ⟨_, searched_iff.mpr rfl⟩, ?_⟩
  rw [← @found_eq_unsearched libm p h.slotCount_pos, ← returned_eq]
  constructor
  · intro hall
    exact hall false false oneHelper oneHelper _ _ (searched_iff.mpr rfl) (searched_iff.mpr rfl)
  · intro heq inRegion inRegion' pool pool' r r' hr hr'
    rw [searched_iff.mp hr, searched_iff.mp hr', heq]

/-- Two parameters, the second of which is the result. -/
def twoParams : Program :=
  ⟨[⟨.param, 0, 0, NO_OPERAND, NO_OPERAND⟩, ⟨.param, 1, 0, NO_OPERAND, NO_OPERAND⟩], 1⟩

theorem twoParams_built : twoParams.Built :=
  ⟨_, 1, .param (.param .new 0) 1, by decide⟩

/-- One worker and two find the same. -/
theorem reproducible_iff_twoParams : ∃ r, Searched .absent false oneHelper twoParams 1 r ∧
    Searched .absent false oneHelper twoParams 2 r := by
  obtain ⟨hreturns, hsame⟩ := reproducible_iff .absent twoParams twoParams_built 1 2
  obtain ⟨r, hr⟩ := hreturns false oneHelper 1
  obtain ⟨r', hr'⟩ := hreturns false oneHelper 2
  have heq : r = r' := hsame.mpr (.inl (by decide)) _ _ _ _ _ _ hr hr'
  exact ⟨r, hr, heq ▸ hr'⟩

/-- The first draw of the last band is the removal of what is not reached. -/
theorem twoParams_not_inert : ¬ Inert (.fromProgram twoParams) := by
  intro h
  obtain ⟨next, hdraw, _⟩ := h .elite (by decide)
  have happlies : (Chain.draw (.fromProgram twoParams) Band.elite.rng).1.isSome = true := by
    rfl
  rw [hdraw] at happlies
  cases happlies

/-- 65 workers do not search. -/
theorem many_workers_not_reproducible : ¬ ∀ (libm : Libm) (p : Program), p.Built →
    ∀ workers workers' inRegion inRegion' pool pool' r r',
      Searched libm inRegion pool p workers r → Searched libm inRegion' pool' p workers' r' →
      r = r' := by
  intro hall
  have heq := hall .absent twoParams twoParams_built 1 65 false false oneHelper oneHelper _ _
    (searched_iff.mpr rfl) (searched_iff.mpr rfl)
  rcases returned_eq.mp heq with hcount | hsame
  · exact absurd hcount (by decide)
  · exact twoParams_not_inert
      ((found_eq_unsearched twoParams_built.slotCount_pos).mp hsame)

end Sxla.Mss
