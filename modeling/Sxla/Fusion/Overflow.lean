import Sxla.Fusion.Crossing

/-!
# Where the fusion search overflows

Scoring sums the bytes of the crossing edges with a plain `u64`, and building
the winner adds the arithmetic to them with another one, where scoring
saturates. No other sum of the search gets out of range.
-/

namespace Sxla

namespace Fusion

open Saturating Transition

variable {a : IrArena} {u : Universe} {s t : Scoring} {w : Nat} {worker : Scorer}

/-- A use gets as far as the sum of the two sizes. -/
def Sums (a : IrArena) (u : Universe) (g : Groups) (pair : NodeId × NodeId) : Prop :=
  skips a u pair.2 = false ∧
    (findRoot g.parent pair.1.index).1 ≠
      (findRoot (findRoot g.parent pair.1.index).2 pair.2.index).1

def mergedSize (g : Groups) (pair : NodeId × NodeId) : Nat :=
  g.sizes.getD (findRoot g.parent pair.1.index).1 0 +
    g.sizes.getD (findRoot (findRoot g.parent pair.1.index).2 pair.2.index).1 0

/-- The search comes to an end, and none of its sums is out of range. -/
structure SearchFits (a : IrArena) : Prop where
  sizes : ∀ u done pair rest, candidates a = done ++ pair :: rest →
    Sums a u (done.foldl (join a u) (.singletons a.slotCount)) pair →
      mergedSize (done.foldl (join a u) (.singletons a.slotCount)) pair ≤ u32Max
  arithmetic : arithmetic a ≤ u64Max
  returns : ∀ inPooledRegion globalPool workers r,
    Returns a inPooledRegion globalPool workers r → r ≠ .error .panic

/-- Each universe's crossing edges fit, and those of the one that wins do so
with the arithmetic; where no sum is below the limit, the first one wins. -/
structure EdgesFit (a : IrArena) : Prop where
  edges : ∀ u, crossingBytes a u ≤ u64Max
  total : (∃ u, crossingBytes a u + arithmetic a < u64Max) ∨
    crossingBytes a .a + arithmetic a ≤ u64Max

-- ---------------------------------------------------------------------------
-- Sizes and arithmetic
-- ---------------------------------------------------------------------------

theorem opArithmetic_bounds (op : Op) : 1 ≤ opArithmetic op ∧ opArithmetic op ≤ 256 := by
  cases op <;> simp [opArithmetic]

theorem length_liveNodes_le (a : IrArena) : a.liveNodes.length ≤ a.slotCount := by
  have h := length_liveIds_le a
  rwa [IrArena.liveIds, List.length_map] at h

theorem arithmetic_le (a : IrArena) : arithmetic a ≤ 256 * a.slotCount := by
  have hsum := List.sum_le_card_nsmul (a.liveNodes.map fun n => opArithmetic n.2.op) 256
    (List.forall_mem_map.mpr fun n _ => (opArithmetic_bounds n.2.op).2)
  rw [List.length_map, smul_eq_mul] at hsum
  have hlength := length_liveNodes_le a
  unfold arithmetic
  omega

theorem arithmetic_pos (h : a.liveNodes ≠ []) : 0 < arithmetic a := by
  obtain ⟨n, hn⟩ := List.exists_mem_of_ne_nil _ h
  have hle := List.single_le_sum (l := a.liveNodes.map fun n => opArithmetic n.2.op)
    (fun _ _ => Nat.zero_le _) _ (List.mem_map_of_mem hn)
  exact (opArithmetic_bounds n.2.op).1.trans hle

theorem groupSize_add_le {n r r' : Nat} {label : Nat → Nat} (h : r ≠ r') :
    groupSize n label r + groupSize n label r' ≤ n := by
  unfold groupSize
  suffices hfrom : ∀ l : List Nat, l.countP (label · = r) + l.countP (label · = r') ≤ l.length by
    simpa using hfrom (List.range n)
  intro l
  induction l with
  | nil => simp
  | cons x l ih =>
    simp only [List.countP_cons, List.length_cons]
    grind

/-- Two groups are no more than the slots. -/
theorem mergedSize_le {label : Nat → Nat} {g : Groups} {pair : NodeId × NodeId}
    (h : Labelled a.slotCount label g) (hpair : pair ∈ candidates a) (hsums : Sums a u g pair) :
    mergedSize g pair ≤ a.slotCount := by
  obtain ⟨hp, hc⟩ := candidate_lt hpair
  obtain ⟨hsame, -, -⟩ := findRoot_spec h.descending (h.length.symm ▸ hp)
  have hrp : (findRoot g.parent pair.1.index).1 = label pair.1.index := h.root _ hp
  have hrc : (findRoot (findRoot g.parent pair.1.index).2 pair.2.index).1 =
      label pair.2.index := (hsame.root _ (h.length.symm ▸ hc)).trans (h.root _ hc)
  obtain ⟨-, hne⟩ := hsums
  rw [hrp, hrc] at hne
  rw [mergedSize, hrp, hrc, h.size _ (h.lt hp) (h.idem hp), h.size _ (h.lt hc) (h.idem hc)]
  exact groupSize_add_le hne

-- ---------------------------------------------------------------------------
-- One universe
-- ---------------------------------------------------------------------------

def scoreOf (a : IrArena) (u : Universe) : Nat := add (crossingBytes a u) (arithmetic a)

/-- Where nothing is live, there is nothing to prune. -/
theorem grouping_pruned {pruned : Bool} (h : pruned = true → a.liveNodes = []) :
    grouping a u pruned = grouping a u false := by
  cases pruned with
  | false => rfl
  | true =>
    have hnone : candidates a = [] := by simp [candidates, uses, h rfl]
    simp [grouping, hnone]

theorem scoreUniverse_eq {pruned : Bool} (hfree : a.nodeFree = [])
    (h : pruned = true → a.liveNodes = []) : scoreUniverse a u pruned =
      if crossingBytes a u ≤ u64Max then some (scoreOf a u) else none := by
  rw [scoreUniverse, grouping_pruned h, scored_bytes hfree]
  split <;> rfl

theorem score_nothing {total : Nat} (h : total ≤ u64Max) :
    score .tier1 a [] total = .ok ⟨total, .tier1⟩ := by
  simp [score, REGISTER_BUDGET_UNITS, checkedAdd, h, orPanic, bind, Except.bind, pure, Except.pure]

/-- Building adds what scoring adds, but does not saturate. -/
theorem buildUniverse_panics {currentBest : Nat} (hfree : a.nodeFree = [])
    (hslots : a.slotCount ≤ 2 ^ 32) (h : buildPrunes currentBest = true → a.liveNodes = [])
    (hfits : crossingBytes a u ≤ u64Max) : buildUniverse a u currentBest = .error .panic ↔
      u64Max < crossingBytes a u + arithmetic a := by
  obtain ⟨cs, hcs, hbytes⟩ := built_bytes hfree hslots u
  rw [if_pos hfits] at hbytes
  have hbuild : buildUniverse a u currentBest = (do
      let total ← orPanic (checkedAdd (crossingBytes a u) (arithmetic a))
      let report ← (score .tier1 a [] total).mapError scoreFailed
      return ⟨cs, cs.deriveEdges a, report.cost, u, evaluated a⟩) := by
    rw [buildUniverse, grouping_pruned h, hcs]
    simp only [bind, Except.bind, hbytes, orPanic]
  rw [hbuild, checkedAdd]
  split
  · next hle => simp [orPanic, score_nothing hle, bind, Except.bind, Except.mapError, pure, Except.pure,
      Nat.not_lt.mpr hle]
  · next hover => simpa [orPanic, bind, Except.bind] using Nat.not_le.mp hover

/-- The least score wins, and of several the first universe's. -/
theorem winner_spec (cost : Universe → Nat) :
    ∃ u, winner ((universeCodes.map cost).zip universeCodes) = some (cost u, u) ∧
      (∀ v, cost u ≤ cost v) ∧ (cost u = cost .a → u = .a) := by
  have hwinner : winner ((universeCodes.map cost).zip universeCodes) =
      some (let best := if beats (cost .b, .b) (cost .a, .a) then (cost .b, .b) else (cost .a, .a)
        if beats (cost .c, .c) best then (cost .c, .c) else best) := rfl
  rw [hwinner]
  by_cases hba : cost .b < cost .a
  · have hb : beats (cost .b, .b) (cost .a, .a) = true := by simp [beats, hba]
    simp only [hb, if_true]
    by_cases hcb : cost .c < cost .b
    · have hc : beats (cost .c, .c) (cost .b, .b) = true := by simp [beats, hcb]
      refine ⟨.c, by rw [if_pos hc], fun v => ?_, fun he => absurd he (by omega)⟩
      cases v <;> omega
    · have hc : beats (cost .c, .c) (cost .b, .b) = false := by
        simp [beats, hcb, Universe.priority]
      refine ⟨.b, by rw [hc]; rfl, fun v => ?_, fun he => absurd he (by omega)⟩
      cases v <;> omega
  · have hb : beats (cost .b, .b) (cost .a, .a) = false := by
      simp [beats, hba, Universe.priority]
    simp only [hb, Bool.false_eq_true, if_false]
    by_cases hca : cost .c < cost .a
    · have hc : beats (cost .c, .c) (cost .a, .a) = true := by simp [beats, hca]
      refine ⟨.c, by rw [if_pos hc], fun v => ?_, fun he => absurd he (by omega)⟩
      cases v <;> omega
    · have hc : beats (cost .c, .c) (cost .a, .a) = false := by
        simp [beats, hca, Universe.priority]
      refine ⟨.a, by rw [hc]; rfl, fun v => ?_, fun _ => rfl⟩
      cases v <;> omega

/-- The scores of all universes end in a panic where the sum that saturates in
the winner's score does. -/
theorem finish_panics (hfree : a.nodeFree = []) (hslots : a.slotCount ≤ 2 ^ 32)
    (h : s.bestCost = 0 → a.liveNodes = []) (hfits : ∀ u, crossingBytes a u ≤ u64Max)
    (hcosts : s.costs = universeCodes.map (scoreOf a)) :
    finish a s = .error .panic ↔ ¬ EdgesFit a := by
  obtain ⟨u, hu, hleast, hfirst⟩ := winner_spec (scoreOf a)
  have hpruned : buildPrunes s.bestCost = true → a.liveNodes = [] := fun hb => h (by
    simp only [buildPrunes, Bool.and_eq_true, decide_eq_true_eq] at hb
    omega)
  have hbuild := buildUniverse_panics hfree hslots hpruned (hfits u)
  have hfinish : finish a s = .error .panic ↔ buildUniverse a u s.bestCost = .error .panic := by
    rw [finish, hcosts, hu]
    cases hb : buildUniverse a u s.bestCost <;> simp [bind, Except.bind, pure, Except.pure, hb]
  rw [hfinish, hbuild]
  have hedges : EdgesFit a ↔ (∃ u, crossingBytes a u + arithmetic a < u64Max) ∨
      crossingBytes a .a + arithmetic a ≤ u64Max := ⟨EdgesFit.total, fun ht => ⟨hfits, ht⟩⟩
  rw [hedges]
  simp only [scoreOf, add] at hleast hfirst
  constructor
  · rintro hover (⟨v, hv⟩ | ha)
    · have hv' := hleast v
      omega
    · have hua := hfirst (by
        have ha' := hleast .a
        omega)
      subst hua
      omega
  · intro hno
    rw [not_or, not_exists] at hno
    obtain ⟨hall, hover⟩ := hno
    have hu' := hall u
    have ha' := hall .a
    have hua := hfirst (by omega)
    subst hua
    omega

-- ---------------------------------------------------------------------------
-- The region
-- ---------------------------------------------------------------------------

/-- A job prunes only where nothing is live; what it carries is the score. -/
def PhaseSound (a : IrArena) (u : Universe) : JobPhase → Prop
  | .load => True
  | .prune => a.liveNodes = []
  | .evaluate pruned => pruned = true → a.liveNodes = []
  | .compare cost | .exchange cost _ | .store cost => scoreUniverse a u false = some cost

namespace Scoring

/-- Every universe is still some worker's job or has its score in `costs`. -/
structure Sound (a : IrArena) (s : Scoring) : Prop where
  best : s.bestCost = 0 → a.liveNodes = []
  jobs : ∀ worker ∈ s.workers, ∀ job ∈ worker.jobs, universeCodes[job.1]? = some job.2
  phase : ∀ worker ∈ s.workers, ∀ job jobs, worker.jobs = job :: jobs →
    PhaseSound a job.2 worker.phase
  size : s.costs.length = 3
  costs : ∀ slot u, universeCodes[slot]? = some u →
    (∃ worker ∈ s.workers, (slot, u) ∈ worker.jobs) ∨
      ∃ cost, s.costs[slot]? = some cost ∧ scoreUniverse a u false = some cost

theorem start_sound {lists : List (List (Nat × Universe))}
    (h : lists.flatten = Partition.allStores (fun u => u) universeCodes) :
    (start lists).Sound a where
  best := nofun
  jobs := by
    intro worker hworker job hjob
    obtain ⟨jobs, hjobs, rfl⟩ := List.mem_map.mp hworker
    have hmem : job ∈ Partition.allStores (fun u => u) universeCodes :=
      h ▸ List.mem_flatten.mpr ⟨jobs, hjobs, hjob⟩
    obtain ⟨⟨u, i⟩, hu, rfl⟩ := List.mem_map.mp hmem
    exact List.mem_zipIdx_iff_getElem?.mp hu
  phase := by
    intro worker hworker job jobs _
    obtain ⟨jobs, -, rfl⟩ := List.mem_map.mp hworker
    trivial
  size := rfl
  costs := by
    intro slot u hu
    have hmem : (slot, u) ∈ lists.flatten := by
      rw [h]
      exact List.mem_map.mpr ⟨(u, slot), List.mem_zipIdx_iff_getElem?.mpr hu, rfl⟩
    obtain ⟨jobs, hjobs, hjob⟩ := List.mem_flatten.mp hmem
    exact .inl ⟨⟨jobs, .load⟩, List.mem_map.mpr ⟨jobs, hjobs, rfl⟩, hjob⟩

/-- A worker moves on with the job it has. -/
theorem Sound.moved {job : Nat × Universe} {jobs : List (Nat × Universe)} (h : s.Sound a)
    (phase : JobPhase) (hw : s.workers[w]? = some worker) (hjobs : worker.jobs = job :: jobs)
    (hphase : PhaseSound a job.2 phase) (hbest : t.bestCost = 0 → a.liveNodes = [])
    (hworkers : t.workers = s.workers.set w { worker with phase }) (hcosts : t.costs = s.costs) :
    t.Sound a where
  best := hbest
  jobs := by
    intro worker' hmem
    rw [hworkers] at hmem
    rcases mem_set_cases hmem with rfl | hmem
    · exact h.jobs worker (List.mem_of_getElem? hw)
    · exact h.jobs worker' hmem
  phase := by
    intro worker' hmem job' jobs' hjobs'
    rw [hworkers] at hmem
    rcases mem_set_cases hmem with rfl | hmem
    · cases hjobs.symm.trans hjobs'
      exact hphase
    · exact h.phase worker' hmem job' jobs' hjobs'
  size := hcosts ▸ h.size
  costs := by
    intro slot u hu
    rw [hcosts, hworkers]
    refine (h.costs slot u hu).imp_left ?_
    rintro ⟨worker', hmem, hjob⟩
    obtain ⟨i, hi⟩ := List.mem_iff_getElem?.mp hmem
    by_cases hiw : w = i
    · subst hiw
      cases hw.symm.trans hi
      exact ⟨_, List.mem_of_getElem? (getElem?_set_of hw _), hjob⟩
    · exact ⟨worker', List.mem_of_getElem? ((List.getElem?_set_ne hiw).trans hi), hjob⟩

/-- A worker is done with a job. -/
theorem Sound.stored {slot cost : Nat} {jobs : List (Nat × Universe)} (h : s.Sound a)
    (hw : s.workers[w]? = some worker) (hjobs : worker.jobs = (slot, u) :: jobs)
    (hcost : scoreUniverse a u false = some cost) :
    Sound a { s with workers := s.workers.set w ⟨jobs, .load⟩, costs := s.costs.set slot cost } where
  best := h.best
  jobs := by
    intro worker' hmem job hjob
    rcases mem_set_cases hmem with rfl | hmem
    · exact h.jobs worker (List.mem_of_getElem? hw) job (hjobs ▸ List.mem_cons_of_mem _ hjob)
    · exact h.jobs worker' hmem job hjob
  phase := by
    intro worker' hmem job jobs' hjobs'
    rcases mem_set_cases hmem with rfl | hmem
    · trivial
    · exact h.phase worker' hmem job jobs' hjobs'
  size := List.length_set.trans h.size
  costs := by
    intro slot' v hv
    have hu := h.jobs worker (List.mem_of_getElem? hw) (slot, u) (hjobs ▸ List.mem_cons_self)
    have hlt : slot < s.costs.length := by
      rw [h.size]
      exact (List.getElem?_eq_some_iff.mp hu).1
    by_cases hslot : slot = slot'
    · subst hslot
      cases hu.symm.trans hv
      exact .inr ⟨cost, List.getElem?_set_self hlt, hcost⟩
    rcases h.costs slot' v hv with ⟨worker', hmem, hjob⟩ | hdone
    · obtain ⟨i, hi⟩ := List.mem_iff_getElem?.mp hmem
      by_cases hiw : w = i
      · subst hiw
        cases hw.symm.trans hi
        rw [hjobs] at hjob
        rcases List.mem_cons.mp hjob with heq | hjob
        · exact absurd (congrArg Prod.fst heq).symm hslot
        · exact .inl ⟨_, List.mem_of_getElem? (getElem?_set_of hw _), hjob⟩
      · exact .inl ⟨worker', List.mem_of_getElem? ((List.getElem?_set_ne hiw).trans hi), hjob⟩
    · exact .inr (by rwa [List.getElem?_set_ne hslot])

theorem score_pos {cost : Nat} (hfree : a.nodeFree = [])
    (h : scoreUniverse a u false = some cost) (hzero : cost = 0) : a.liveNodes = [] := by
  rw [@scoreUniverse_eq a u false hfree nofun] at h
  split at h
  · by_contra hne
    have hpos := arithmetic_pos hne
    have hscore : scoreOf a u = 0 := (Option.some.inj h).trans hzero
    simp only [scoreOf, add, u64Max] at hscore
    omega
  · cases h

theorem Sound.step {action : Nat × Bool} (hfree : a.nodeFree = []) (h : s.Sound a)
    (hs : s.step a action = some t) : t.Sound a := by
  obtain ⟨w, spurious⟩ := action
  obtain ⟨worker, hw, hs⟩ := Option.bind_eq_some_iff.mp hs
  split at hs
  · cases hs
  next slot u jobs hjobs =>
  have hphase := h.phase worker (List.mem_of_getElem? hw) _ _ hjobs
  split at hs
  · cases hs
    refine h.moved _ hw hjobs ?_ h.best rfl rfl
    unfold scorePrunes
    split
    · next hzero => exact h.best (of_decide_eq_true hzero)
    · exact nofun
  · next hp =>
    rw [hp] at hphase
    cases hs
    exact h.moved (.evaluate true) hw hjobs (fun _ => hphase) h.best rfl rfl
  · next pruned hp =>
    rw [hp] at hphase
    obtain ⟨cost, hcost, hs⟩ := Option.bind_eq_some_iff.mp hs
    cases hs
    rw [scoreUniverse_eq hfree hphase, ← @scoreUniverse_eq a u false hfree nofun] at hcost
    exact h.moved (.compare cost) hw hjobs hcost h.best rfl rfl
  · next cost hp =>
    rw [hp] at hphase
    cases hs
    exact h.moved (.exchange cost s.bestCost) hw hjobs hphase h.best rfl rfl
  · next cost cur hp =>
    rw [hp] at hphase
    split at hs
    · split at hs
      · cases hs
        exact h.moved (.store cost) hw hjobs hphase (score_pos hfree hphase) rfl rfl
      · cases hs
        exact h.moved (.exchange cost s.bestCost) hw hjobs hphase h.best rfl rfl
    · cases hs
      exact h.moved (.store cost) hw hjobs hphase h.best rfl rfl
  · next cost hp =>
    rw [hp] at hphase
    cases hs
    exact h.stored hw hjobs hphase

end Scoring

-- ---------------------------------------------------------------------------
-- The search
-- ---------------------------------------------------------------------------

theorem plan_stores {inPooledRegion : Bool} {globalPool : Pool} {workers : Nat}
    {lists : List (List (Nat × Universe))}
    (h : plan inPooledRegion globalPool workers = .ok lists) :
    lists.flatten = Partition.allStores (fun u => u) universeCodes := by
  by_cases hmax : max workers 1 ≤ MAX_WORKERS
  · have hstores : ∃ lists', plan inPooledRegion globalPool workers = .ok lists' ∧
        lists'.flatten = Partition.allStores (fun u => u) universeCodes :=
      Partition.stores rfl (Nat.le_max_right workers 1) hmax
    obtain ⟨lists', hok, hflat⟩ := hstores
    cases hok.symm.trans h
    exact hflat
  · -- Neither the pool nor the scoped executor takes so many workers.
    have hpool : (!inPooledRegion && globalPool.workers == max workers 1) = false := by
      have hbounded := globalPool.bounded
      have hne : globalPool.workers ≠ max workers 1 := by
        unfold Pool.workers
        omega
      simp [hne]
    have hcount : Partition.checkWorkerCount (max workers 1) = .error (.error .tooManyWorkers) := by
      rw [Partition.checkWorkerCount, if_neg (by omega), if_pos (by omega)]
    simp only [plan, runPartitioned, hpool, runPartitionedScoped, hcount] at h
    cases h

theorem Scoring.Sound.costs_eq (h : s.Sound a) (hfree : a.nodeFree = [])
    (hfits : ∀ u, crossingBytes a u ≤ u64Max) (hdone : s.Done) :
    s.costs = universeCodes.map (scoreOf a) := by
  refine List.ext_getElem? fun slot => ?_
  rw [List.getElem?_map]
  cases hu : universeCodes[slot]? with
  | none =>
    have hlength : universeCodes.length ≤ slot := List.getElem?_eq_none_iff.mp hu
    exact List.getElem?_eq_none (h.size ▸ hlength)
  | some u =>
    rcases h.costs slot u hu with ⟨worker, hworker, hjob⟩ | ⟨cost, hcost, hscore⟩
    · rw [hdone worker hworker] at hjob
      cases hjob
    · rw [@scoreUniverse_eq a u false hfree nofun, if_pos (hfits u)] at hscore
      rw [hcost, ← hscore]
      rfl

theorem fallback_eq (hfree : a.nodeFree = []) (hfits : ∀ u, crossingBytes a u ≤ u64Max) :
    ∃ s, fallback a = some s ∧ s.bestCost = u64Max ∧ s.costs = universeCodes.map (scoreOf a) := by
  have hscore : ∀ u, scoreUniverse a u (scorePrunes u64Max) = some (scoreOf a u) := fun u => by
    rw [scoreUniverse_eq hfree fun h => absurd h (by decide), if_pos (hfits u)]
  exact ⟨_, by simp only [fallback, hscore, universeCodes, List.mapM_cons, List.mapM_nil]; rfl,
    rfl, rfl⟩

theorem fallback_none (hfree : a.nodeFree = []) (hover : ¬ crossingBytes a u ≤ u64Max) :
    fallback a = none := by
  have hscore : scoreUniverse a u (scorePrunes u64Max) = none := by
    rw [scoreUniverse_eq hfree fun h => absurd h (by decide), if_neg hover]
  cases u <;> simp [fallback, universeCodes, hscore]

theorem Scoring.reachable_sound {lists : List (List (Nat × Universe))} (hfree : a.nodeFree = [])
    (hlists : lists.flatten = Partition.allStores (fun u => u) universeCodes)
    (h : Reachable (Scoring.step a) (fun _ _ => True) (.start lists) s) : s.Sound a :=
  h.invariant (start_sound hlists) fun _ _ _ hsound _ hs => hsound.step hfree hs

/-- The search ends without an overflow where the edges fit, and only there. -/
theorem search_fits_iff (hfree : a.nodeFree = []) (hslots : a.slotCount < 2 ^ 32) :
    SearchFits a ↔ EdgesFit a := by
  have hslots' : a.slotCount ≤ 2 ^ 32 := hslots.le
  constructor
  · intro h
    by_contra hno
    -- A hundred workers are too many, so the sequential loop scores.
    have hplan : plan true ⟨0, by decide⟩ 100 = .error (.error .tooManyWorkers) := rfl
    by_cases hfits : ∀ u, crossingBytes a u ≤ u64Max
    · obtain ⟨s, hs, hbest, hcosts⟩ := fallback_eq hfree hfits
      refine h.returns true ⟨0, by decide⟩ 100 _ (.declined hplan hs) ?_
      exact (finish_panics hfree hslots' (hbest ▸ nofun) hfits hcosts).mpr hno
    · push Not at hfits
      obtain ⟨u, hover⟩ := hfits
      have hs := fallback_none hfree (Nat.not_le.mpr hover)
      exact h.returns true ⟨0, by decide⟩ 100 _ (.declinedPanicked hplan hs) rfl
  · intro h
    refine ⟨fun u done pair rest hpairs hsums => ?_, ?_, ?_⟩
    · have hmem : ∀ p ∈ done ++ pair :: rest, p ∈ candidates a := fun p hp => hpairs ▸ hp
      have hlabelled := @joins_labelled a u done fun p hp => hmem p (List.mem_append_left _ hp)
      have hle := mergedSize_le hlabelled (hmem pair (by simp)) hsums
      unfold u32Max
      omega
    · have hle := arithmetic_le a
      unfold u64Max
      omega
    · rintro inPooledRegion globalPool workers r hr hpanic
      cases hr with
      | region hplan hreach hdone =>
        have hsound := Scoring.reachable_sound hfree (plan_stores hplan) hreach
        have hcosts := hsound.costs_eq hfree h.edges hdone
        exact (finish_panics hfree hslots' hsound.best h.edges hcosts).mp hpanic h
      | panicked hplan hreach hpanics =>
        have hsound := Scoring.reachable_sound hfree (plan_stores hplan) hreach
        obtain ⟨worker, hworker, slot, u, jobs, pruned, hjobs, hphase, hscore⟩ := hpanics
        have hpruned := hsound.phase worker hworker _ _ hjobs
        rw [hphase] at hpruned
        rw [scoreUniverse_eq hfree hpruned, if_pos (h.edges u)] at hscore
        cases hscore
      | declined hplan hs =>
        obtain ⟨s, hs', hbest, hcosts⟩ := fallback_eq hfree h.edges
        cases hs.symm.trans hs'
        exact (finish_panics hfree hslots' (hbest ▸ nofun) h.edges hcosts).mp hpanic h
      | declinedPanicked hplan hs =>
        obtain ⟨s, hs', -, -⟩ := fallback_eq hfree h.edges
        cases hs.symm.trans hs'

end Fusion

end Sxla
