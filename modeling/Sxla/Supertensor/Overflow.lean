import Sxla.Fusion.Overflow
import Sxla.Graph.Verifier
import Sxla.Library.Transition
import Sxla.Supertensor.Exhaustive
import Sxla.Text.Program

/-!
# Where the superoptimizer's search overflows

A worker again, with the `u64` sums that the source does not saturate: its
three counters and the remaining minima of a prune. The budgets bound the
counters. The minima are summed where the anchor leaves the cycles undecided,
and nothing bounds them.
-/

namespace Sxla

open Saturating SchedulePolytope

-- ---------------------------------------------------------------------------
-- A worker with its sums
-- ---------------------------------------------------------------------------

/-- `prefix_prune`, or nothing where the remaining minima overflow. -/
def checkedPrune (ops : List PackedOpSched) (depth anchorWord : Nat) (poly : SchedulePolytope) :
    Option Bool :=
  let anchor := unpackAnchor anchorWord
  if anchorWord = ANCHOR_NONE then some false
  else if poly.constCyclesLb < anchor.cycles then some false
  else do
    let hbmLb ← poly.hbmBound ops depth
    let sramLb := poly.sramBound ops depth
    if hbmLb < anchor.hbmBytes || sramLb < anchor.sramUsage then return false
    return hbmLb > anchor.hbmBytes || sramLb > anchor.sramUsage ||
      poly.constCyclesLb > anchor.cycles

namespace Worker

/-- One choice for the next op. What is kept goes on the stack. -/
def checkedPush (cfg : SearchConfig) (wk : Worker) (ops : List PackedOpSched)
    (stack : List (List PackedOpSched)) (choice : PackedOpSched) :
    Option (List (List PackedOpSched)) :=
  let next := ops ++ [choice]
  if feasiblePrefix cfg.poly next (ops.length + 1) then
    if cfg.enablePrune then
      (checkedPrune next (ops.length + 1) wk.anchorWord cfg.poly).map fun pruned =>
        if pruned then stack else next :: stack
    else some (next :: stack)
  else some stack

def checkedWork (cfg : SearchConfig) (wk : Worker) (ops : List PackedOpSched) :
    Option (Worker × Option FrontierPoint) :=
  if ops.length = cfg.poly.opCount then
    if wk.evaluated ≥ MAX_CAND_PER_WORKER then some (wk.giveUp, none)
    else
      let cost := evaluate ops cfg.poly
      if wk.anchored cfg cost then
        (checkedAdd wk.pruned 1).map fun pruned => ({ wk with pruned, phase := .looping }, none)
      else
        (checkedAdd wk.evaluated 1).map fun evaluated =>
          ({ wk with evaluated, phase := .looping }, some ⟨cost, ops⟩)
  else
    ((opDomain cfg.poly ops.length).foldlM (wk.checkedPush cfg ops) wk.stack).map fun stack =>
      ({ wk with stack, phase := .looping }, none)

def checkedPop (cfg : SearchConfig) (wk : Worker) : Option (Worker × Option FrontierPoint) :=
  match wk.stack with
  | [] => some ({ wk with phase := .flushing }, none)
  | ops :: stack =>
    (checkedAdd wk.expansions 1).bind fun expansions =>
      let wk := { wk with stack, expansions }
      if wk.expansions > MAX_EXPANSIONS_PER_WORKER then some (wk.giveUp, none)
      else if cfg.enablePrune && wk.expansions &&& 0xFF == 0 then
        some ({ wk with phase := .polling ops }, none)
      else wk.checkedWork cfg ops

def checkedPoll (cfg : SearchConfig) (wk : Worker) (ops : List PackedOpSched) (word : Nat) :
    Option (Worker × Option FrontierPoint) :=
  { wk with anchorWord := word }.checkedWork cfg ops

end Worker

/-- The loops over a tile's dims count past its upper bounds, and the one over
the levels counts down to the lower one. -/
structure OpBounds.LoopsFit (b : OpBounds) : Prop where
  tiles : ∀ d, b.tileMax.dim d + 1 ≤ u32Max
  levels : b.memMin.code ≤ b.memMax.code

/-- The worker's next action, with its sums. -/
def Lane.checkedStep (cfg : SearchConfig) (word : Option Nat) (lane : Lane) : Option Lane :=
  match lane.worker.phase with
  | .looping => do lane.put (← lane.worker.checkedPop cfg)
  | .polling ops => do lane.put (← lane.worker.checkedPoll cfg ops (← word))
  | .flushing => some (lane.publish.enter .marking)
  | .marking => some (lane.enter .ended)
  | .ended => none

/-- One of the sums of the action overflows. -/
def Lane.Overflows (cfg : SearchConfig) (word : Option Nat) (lane : Lane) : Prop :=
  match lane.worker.phase with
  | .looping => lane.worker.checkedPop cfg = none
  | .polling ops => ∃ w, word = some w ∧ lane.worker.checkedPoll cfg ops w = none
  | _ => False

/-- So does the next action of the search; the merger counts what it takes. -/
def Search.Overflows (cfg : SearchConfig) (s : Search) : SearchAction → Prop
  | .worker w seen => ∃ lane, s.lanes[w]? = some lane ∧ lane.Overflows cfg s.published[seen]?
  | .merger =>
    match s.merger.phase with
    | .draining k => ∃ lane, s.lanes[k]? = some lane ∧
        checkedAdd s.merger.got lane.take.length = none
    | _ => False

-- ---------------------------------------------------------------------------
-- The condition
-- ---------------------------------------------------------------------------

/-- The minima of the ops from `depth` on. -/
def SchedulePolytope.minimaFrom (poly : SchedulePolytope) (depth : Nat) : Nat :=
  ((poly.opMinHbm.take poly.opCount).drop depth).sum

/-- A prune under this anchor depends on the traffic. -/
def Undecided (poly : SchedulePolytope) (anchorWord : Nat) : Prop :=
  anchorWord ≠ ANCHOR_NONE ∧ (unpackAnchor anchorWord).cycles ≤ poly.constCyclesLb

/-- Where the extensions of a prefix are put to such a prune, the minima behind
them fit. -/
def MinimaFit (cfg : SearchConfig) (ops : List PackedOpSched) (anchorWord : Nat) : Prop :=
  cfg.enablePrune = true → ops.length ≠ cfg.poly.opCount → cfg.poly.extensions ops ≠ [] →
    Undecided cfg.poly anchorWord → cfg.poly.minimaFrom (ops.length + 1) ≤ u64Max

/-- The prefix that a pop goes on to work on, where no budget trips and no
poll comes first. -/
def Worker.worksOn (cfg : SearchConfig) (wk : Worker) : Option (List PackedOpSched) :=
  match wk.stack with
  | [] => none
  | ops :: _ =>
    if wk.expansions + 1 > MAX_EXPANSIONS_PER_WORKER then none
    else if cfg.enablePrune && (wk.expansions + 1) &&& 0xFF == 0 then none
    else some ops

/-- The prefix that the worker's next action works on, and the anchor it has
for it. -/
def Lane.worksOn (cfg : SearchConfig) (word : Option Nat) (lane : Lane) :
    Option (List PackedOpSched × Nat) :=
  match lane.worker.phase with
  | .looping => (lane.worker.worksOn cfg).map (·, lane.worker.anchorWord)
  | .polling ops => word.map (ops, ·)
  | _ => none

def Search.MinimaFit (cfg : SearchConfig) (s : Search) : SearchAction → Prop
  | .worker w seen => ∀ lane ops word, s.lanes[w]? = some lane →
      lane.worksOn cfg s.published[seen]? = some (ops, word) → Sxla.MinimaFit cfg ops word
  | .merger => True

-- ---------------------------------------------------------------------------
-- A prune
-- ---------------------------------------------------------------------------

variable {cfg : SearchConfig} {poly : SchedulePolytope} {wk : Worker}
  {ops : List PackedOpSched} {depth word : Nat}

theorem remainingMinima_checked (poly : SchedulePolytope) (depth : Nat) :
    poly.remainingMinima depth =
      if poly.minimaFrom depth ≤ u64Max then some (poly.minimaFrom depth) else none :=
  checkedSum_eq _

theorem checkedPrune_eq (h : Undecided poly word → poly.minimaFrom depth ≤ u64Max) :
    checkedPrune ops depth word poly = some (prefixPrune ops depth word poly) := by
  unfold checkedPrune prefixPrune
  by_cases hnone : word = ANCHOR_NONE
  · simp [hnone]
  by_cases hcycles : poly.constCyclesLb < (unpackAnchor word).cycles
  · have hnot : dominates (unpackAnchor word) (poly.prefixBound ops depth) = false := by
      rw [← Bool.not_eq_true, dominates_iff]
      exact fun hd => Nat.not_le.mpr hcycles hd.1.1
    simp [hnone, hcycles, hnot]
  have hfits : poly.minimaFrom depth ≤ u64Max := h ⟨hnone, Nat.not_lt.mp hcycles⟩
  have hmin : poly.remainingMin depth = poly.minimaFrom depth := by
    exact Nat.mod_eq_of_lt (Nat.lt_succ_of_le hfits)
  have hbound : poly.prefixBound ops depth = ⟨poly.constCyclesLb,
      add (sum (overOps (ops.take depth) poly.hbmLowerOut)) (poly.minimaFrom depth),
      poly.sramBound ops depth⟩ := by rw [prefixBound, hmin, sramBound]
  simp only [hnone, hcycles, hbmBound, remainingMinima_checked, if_pos hfits, if_false,
    Option.map_some, Option.bind_eq_bind, Option.bind_some, hbound, Option.pure_def]
  rw [← apply_ite some]
  congr 1
  rw [Bool.eq_iff_iff]
  simp only [dominates_iff, Bool.and_eq_true, bne_iff_ne, ne_eq, hnone, not_false_eq_true, true_and]
  split
  · next hless =>
    simp only [Bool.or_eq_true, decide_eq_true_eq] at hless
    simp only [Bool.false_eq_true, false_iff]
    omega
  · next hless =>
    simp only [Bool.or_eq_true, decide_eq_true_eq] at hless ⊢
    omega

theorem checkedPrune_none (h : Undecided poly word) (hover : u64Max < poly.minimaFrom depth) :
    checkedPrune ops depth word poly = none := by
  simp [checkedPrune, h.1, Nat.not_lt.mpr h.2, hbmBound, remainingMinima_checked,
    Nat.not_le.mpr hover]

-- ---------------------------------------------------------------------------
-- A pass through the loop
-- ---------------------------------------------------------------------------

namespace Worker

theorem checkedPush_eq {stack : List (List PackedOpSched)} {choice : PackedOpSched}
    (h : cfg.enablePrune = true → feasiblePrefix cfg.poly (ops ++ [choice]) (ops.length + 1) = true →
      Undecided cfg.poly wk.anchorWord → cfg.poly.minimaFrom (ops.length + 1) ≤ u64Max) :
    wk.checkedPush cfg ops stack choice =
      some (if feasiblePrefix cfg.poly (ops ++ [choice]) (ops.length + 1) &&
          !(cfg.enablePrune &&
            prefixPrune (ops ++ [choice]) (ops.length + 1) wk.anchorWord cfg.poly) then
        (ops ++ [choice]) :: stack else stack) := by
  unfold checkedPush
  by_cases hf : feasiblePrefix cfg.poly (ops ++ [choice]) (ops.length + 1) = true
  · by_cases hp : cfg.enablePrune = true
    · rw [if_pos hf, if_pos hp, checkedPrune_eq (h hp hf)]
      cases prefixPrune (ops ++ [choice]) (ops.length + 1) wk.anchorWord cfg.poly <;> simp [hf, hp]
    · simp [hf, hp]
  · simp [hf]

theorem foldlM_checkedPush {choices : List PackedOpSched} {stack : List (List PackedOpSched)}
    (h : cfg.enablePrune = true →
      (∃ choice ∈ choices, feasiblePrefix cfg.poly (ops ++ [choice]) (ops.length + 1) = true) →
        Undecided cfg.poly wk.anchorWord → cfg.poly.minimaFrom (ops.length + 1) ≤ u64Max) :
    choices.foldlM (wk.checkedPush cfg ops) stack =
      some (((choices.map (ops ++ [·])).filter fun next =>
        feasiblePrefix cfg.poly next (ops.length + 1) &&
          !(cfg.enablePrune && prefixPrune next (ops.length + 1) wk.anchorWord cfg.poly)).reverse ++
        stack) := by
  induction choices generalizing stack with
  | nil => rfl
  | cons choice choices ih =>
    rw [List.foldlM_cons, checkedPush_eq fun hp hf hu => h hp ⟨choice, List.mem_cons_self, hf⟩ hu,
      Option.bind_eq_bind, Option.bind_some, ih fun hp hex hu =>
        h hp (hex.imp fun c hc => ⟨List.mem_cons_of_mem _ hc.1, hc.2⟩) hu,
      List.map_cons, List.filter_cons]
    split <;> simp

/-- The first extension that is put to the prune overflows. -/
theorem foldlM_checkedPush_none {choices : List PackedOpSched} {stack : List (List PackedOpSched)}
    (hprune : cfg.enablePrune = true) (hu : Undecided cfg.poly wk.anchorWord)
    (hover : u64Max < cfg.poly.minimaFrom (ops.length + 1))
    (h : ∃ choice ∈ choices, feasiblePrefix cfg.poly (ops ++ [choice]) (ops.length + 1) = true) :
    choices.foldlM (wk.checkedPush cfg ops) stack = none := by
  induction choices generalizing stack with
  | nil => simp at h
  | cons choice choices ih =>
    rw [List.foldlM_cons]
    by_cases hf : feasiblePrefix cfg.poly (ops ++ [choice]) (ops.length + 1) = true
    · rw [checkedPush, if_pos hf, if_pos hprune, checkedPrune_none hu hover]
      rfl
    · have hstep : wk.checkedPush cfg ops stack choice = some stack := by
        rw [checkedPush, if_neg hf]
      obtain ⟨c, hc, hcf⟩ := h
      rcases List.mem_cons.mp hc with rfl | hc
      · exact absurd hcf hf
      · rw [hstep]
        exact ih ⟨c, hc, hcf⟩

theorem extensions_ne_nil : cfg.poly.extensions ops ≠ [] ↔ ∃ choice ∈ opDomain cfg.poly ops.length,
    feasiblePrefix cfg.poly (ops ++ [choice]) (ops.length + 1) = true := by
  simp [extensions]

/-- The counters of a worker, far below where they could overflow. -/
structure Bounded (wk : Worker) : Prop where
  done : wk.evaluated + wk.pruned ≤ wk.expansions
  expansions : wk.expansions ≤ MAX_EXPANSIONS_PER_WORKER + 1

theorem Bounded.checkedAdd (h : wk.Bounded) : checkedAdd wk.evaluated 1 = some (wk.evaluated + 1) ∧
    checkedAdd wk.pruned 1 = some (wk.pruned + 1) ∧
    checkedAdd wk.expansions 1 = some (wk.expansions + 1) := by
  have hdone := h.done
  have hexpansions := h.expansions
  unfold MAX_EXPANSIONS_PER_WORKER at hexpansions
  refine ⟨if_pos ?_, if_pos ?_, if_pos ?_⟩ <;> unfold u64Max <;> omega

theorem checkedWork_none (h : wk.Bounded) :
    wk.checkedWork cfg ops = none ↔ ¬ MinimaFit cfg ops wk.anchorWord := by
  obtain ⟨hevaluated, hpruned, -⟩ := h.checkedAdd
  unfold checkedWork
  by_cases hlen : ops.length = cfg.poly.opCount
  · have hfit : MinimaFit cfg ops wk.anchorWord := fun _ hne => absurd hlen hne
    simp only [if_pos hlen, hevaluated, hpruned]
    refine iff_of_false ?_ (not_not.mpr hfit)
    split
    · exact nofun
    · split <;> exact nofun
  · rw [if_neg hlen, Option.map_eq_none_iff]
    by_cases hfit : MinimaFit cfg ops wk.anchorWord
    · rw [foldlM_checkedPush fun hp hex hu => hfit hp hlen (extensions_ne_nil.mpr hex) hu]
      exact iff_of_false nofun (not_not.mpr hfit)
    · refine iff_of_true ?_ hfit
      unfold MinimaFit at hfit
      push Not at hfit
      obtain ⟨hprune, -, hex, hu, hover⟩ := hfit
      exact foldlM_checkedPush_none hprune hu hover (extensions_ne_nil.mp hex)

/-- Where no sum overflows, this is the worker of the search. -/
theorem checkedWork_eq (h : wk.Bounded) (hfit : MinimaFit cfg ops wk.anchorWord) :
    wk.checkedWork cfg ops = some (wk.work cfg ops) := by
  obtain ⟨hevaluated, hpruned, -⟩ := h.checkedAdd
  unfold checkedWork work
  by_cases hlen : ops.length = cfg.poly.opCount
  · simp only [if_pos hlen, hevaluated, hpruned, Option.map_some]
    split
    · rfl
    · split <;> rfl
  · simp only [if_neg hlen]
    rw [foldlM_checkedPush fun hp hex hu => hfit hp hlen (extensions_ne_nil.mpr hex) hu]
    rfl

def Running (wk : Worker) : Prop := wk.phase = .looping ∨ ∃ ops, wk.phase = .polling ops

/-- A worker that goes on has not spent its expansions, and one that polls has
yet to count what it popped. -/
structure Counted (wk : Worker) : Prop extends Bounded wk where
  running : wk.Running → wk.expansions ≤ MAX_EXPANSIONS_PER_WORKER
  polling : ∀ ops, wk.phase = .polling ops → wk.evaluated + wk.pruned < wk.expansions

theorem Counted.looping (h : wk.Bounded) (hp : wk.phase = .looping)
    (hexp : wk.expansions ≤ MAX_EXPANSIONS_PER_WORKER) : wk.Counted where
  toBounded := h
  running _ := hexp
  polling ops hpoll := by
    rw [hp] at hpoll
    cases hpoll

theorem Counted.stopped (h : wk.Bounded) (hstop : ¬ wk.Running) : wk.Counted where
  toBounded := h
  running hrun := absurd hrun hstop
  polling ops hpoll := absurd (.inr ⟨ops, hpoll⟩) hstop

theorem start_counted (w : Nat) : (start cfg w).Counted :=
  .looping ⟨Nat.zero_le _, Nat.zero_le _⟩ rfl (Nat.zero_le _)

theorem work_counted (hdone : wk.evaluated + wk.pruned < wk.expansions)
    (hexp : wk.expansions ≤ MAX_EXPANSIONS_PER_WORKER) : (wk.work cfg ops).1.Counted := by
  have hexp' : wk.expansions ≤ MAX_EXPANSIONS_PER_WORKER + 1 := hexp.trans (Nat.le_succ _)
  have hless := Nat.le_of_lt hdone
  unfold work
  split
  · split
    · exact .stopped ⟨hless, hexp'⟩ (by simp [Running, giveUp])
    · simp only
      split
      · exact .looping ⟨hdone, hexp'⟩ rfl hexp
      · have hmore : wk.evaluated + 1 + wk.pruned ≤ wk.expansions := by omega
        exact .looping ⟨hmore, hexp'⟩ rfl hexp
  · exact .looping ⟨hless, hexp'⟩ rfl hexp

theorem Counted.pop (h : wk.Counted) (hp : wk.phase = .looping) : (wk.pop cfg).1.Counted := by
  have hexp := h.running (.inl hp)
  have hdone := h.done
  unfold Worker.pop
  split
  · exact .stopped ⟨hdone, h.expansions⟩ (by simp [Running])
  · next ops stack _ =>
    have hmore : wk.evaluated + wk.pruned < wk.expansions + 1 := by omega
    simp only
    split
    · exact .stopped ⟨hmore.le, Nat.succ_le_succ hexp⟩ (by simp [Running, giveUp])
    · next hover =>
      split
      · exact ⟨⟨hmore.le, Nat.succ_le_succ hexp⟩, fun _ => Nat.not_lt.mp hover, fun _ _ => hmore⟩
      · exact @work_counted cfg { wk with stack, expansions := wk.expansions + 1 } ops hmore
          (Nat.not_lt.mp hover)

theorem Counted.poll (h : wk.Counted) (hp : wk.phase = .polling ops) :
    (wk.poll cfg ops word).1.Counted :=
  @work_counted cfg { wk with anchorWord := word } ops (h.polling ops hp) (h.running (.inr ⟨ops, hp⟩))

theorem checkedPop_none (h : wk.Counted) (hp : wk.phase = .looping) :
    wk.checkedPop cfg = none ↔ ∃ ops, wk.worksOn cfg = some ops ∧
      ¬ MinimaFit cfg ops wk.anchorWord := by
  have hadd := h.checkedAdd.2.2
  have hexp := h.running (.inl hp)
  have hdone := h.done
  unfold checkedPop worksOn
  cases hs : wk.stack with
  | nil => simp
  | cons ops stack =>
    have hbounded : Bounded { wk with stack, expansions := wk.expansions + 1 } :=
      ⟨hdone.trans (Nat.le_succ _), Nat.succ_le_succ hexp⟩
    simp only [hadd, Option.bind_some]
    by_cases hover : wk.expansions + 1 > MAX_EXPANSIONS_PER_WORKER
    · simp [hover]
    by_cases hpoll : (cfg.enablePrune && (wk.expansions + 1) &&& 0xFF == 0) = true
    · simp [hover, hpoll]
    simp only [if_neg hover, if_neg hpoll, checkedWork_none hbounded, Option.some.injEq,
      exists_eq_left']

/-- Where no sum overflows, a pop is the one of the search. -/
theorem checkedPop_eq (h : wk.Counted) (hp : wk.phase = .looping)
    (hfit : ∀ ops, wk.worksOn cfg = some ops → MinimaFit cfg ops wk.anchorWord) :
    wk.checkedPop cfg = some (wk.pop cfg) := by
  have hadd := h.checkedAdd.2.2
  have hexp := h.running (.inl hp)
  have hdone := h.done
  unfold checkedPop pop
  unfold worksOn at hfit
  cases hs : wk.stack with
  | nil => rfl
  | cons ops stack =>
    have hbounded : Bounded { wk with stack, expansions := wk.expansions + 1 } :=
      ⟨hdone.trans (Nat.le_succ _), Nat.succ_le_succ hexp⟩
    simp only [hs] at hfit
    simp only [hadd, Option.bind_some]
    split
    · rfl
    · next hover =>
      split
      · rfl
      · next hpoll =>
        exact checkedWork_eq hbounded (hfit ops (by rw [if_neg hover, if_neg hpoll]))

end Worker

-- ---------------------------------------------------------------------------
-- A step
-- ---------------------------------------------------------------------------

namespace Lane

variable {lane lane' : Lane} {seen : Option Nat}

theorem step_counted (h : lane.worker.Counted) (hs : lane.step cfg seen = some lane') :
    lane'.worker.Counted := by
  rcases step_cases hs with ⟨r, hput, -, ⟨hp, rfl⟩ | ⟨ops, x, hp, -, rfl⟩⟩ | ⟨hp, rfl⟩ | ⟨hp, rfl⟩
  · exact (put_fields hput).1 ▸ h.pop hp
  · exact (put_fields hput).1 ▸ h.poll hp
  · exact .stopped ⟨by simpa [enter] using h.done, by simpa [enter] using h.expansions⟩
      (by simp [enter, Worker.Running])
  · exact .stopped ⟨h.done, h.expansions⟩ (by simp [enter, Worker.Running])

theorem overflows_iff (h : lane.worker.Counted) : lane.Overflows cfg seen ↔
    ∃ ops word, lane.worksOn cfg seen = some (ops, word) ∧ ¬ MinimaFit cfg ops word := by
  unfold Overflows worksOn
  cases hp : lane.worker.phase with
  | looping => simp [Worker.checkedPop_none h hp]
  | polling ops =>
    have hbounded : ∀ word, Worker.Bounded { lane.worker with anchorWord := word } :=
      fun _ => ⟨h.done, h.expansions⟩
    simp only [Worker.checkedPoll, Worker.checkedWork_none (hbounded _)]
    simp
  | flushing => simp
  | marking => simp
  | ended => simp

/-- Where none does, the action is the one of the search. -/
theorem checkedStep_eq (h : lane.worker.Counted)
    (hfit : ∀ ops word, lane.worksOn cfg seen = some (ops, word) → MinimaFit cfg ops word) :
    lane.checkedStep cfg seen = lane.step cfg seen := by
  unfold worksOn at hfit
  unfold checkedStep step
  cases hp : lane.worker.phase with
  | looping =>
    simp only [hp] at hfit
    simp only [Worker.checkedPop_eq h hp fun ops hops => hfit ops _ (by simp [hops])]
    rfl
  | polling ops =>
    simp only [hp] at hfit
    cases seen with
    | none => rfl
    | some word =>
      have hbounded : Worker.Bounded { lane.worker with anchorWord := word } :=
        ⟨h.done, h.expansions⟩
      have hpoll : lane.worker.checkedPoll cfg ops word = some (lane.worker.poll cfg ops word) :=
        Worker.checkedWork_eq hbounded (hfit ops word rfl)
      simp only [Option.bind_eq_bind, Option.bind_some, hpoll]
  | flushing => rfl
  | marking => rfl
  | ended => rfl

end Lane

-- ---------------------------------------------------------------------------
-- Every run
-- ---------------------------------------------------------------------------

namespace Search

variable {s t : Search} {meets : Search → SearchAction → Prop}

def taken (s : Search) : Nat := (s.lanes.map (·.received.length)).sum

/-- The workers' counters are bounded, and the merger has counted no more than
it took. -/
structure Counted (s : Search) : Prop where
  lanes : ∀ lane ∈ s.lanes, lane.worker.Counted
  got : s.merger.got ≤ s.taken

theorem start_counted : (start cfg).Counted where
  lanes := by
    simp only [start, List.mem_map]
    rintro _ ⟨w, -, rfl⟩
    exact Worker.start_counted w
  got := Nat.zero_le _

theorem taken_setLane {lane lane' : Lane} {w : Nat} (hl : s.lanes[w]? = some lane) :
    (s.setLane w lane').taken + lane.received.length = s.taken + lane'.received.length :=
  Transition.sum_map_set (fun lane => lane.received.length) hl lane'

theorem Counted.drain (h : s.Counted) (k : Nat) : (s.drain k).Counted := by
  unfold Search.drain
  cases hl : s.lanes[k]? with
  | none => exact ⟨h.lanes, h.got⟩
  | some lane =>
    have hmem := List.mem_of_getElem? hl
    have htaken := @taken_setLane s lane lane.taken k hl
    have hreceived : lane.taken.received.length = lane.received.length + lane.take.length := by
      simp [Lane.taken]
    have hlanes : ∀ x ∈ s.lanes.set k lane.taken, x.worker.Counted := by
      intro x hx
      rcases List.mem_or_eq_of_mem_set hx with hx | rfl
      · exact h.lanes x hx
      · exact h.lanes lane hmem
    have hgot := h.got
    simp only
    split
    · refine ⟨hlanes, ?_⟩
      change s.merger.got ≤ (s.setLane k lane.taken).taken
      omega
    · refine ⟨hlanes, ?_⟩
      change s.merger.got + lane.take.length ≤ (s.setLane k lane.taken).taken
      omega

theorem Run.counted (h : Run cfg meets s) : s.Counted := by
  induction h with
  | start => exact start_counted
  | @step s t action hrun _ hs ih =>
    rcases step_cases hs with ⟨w, seen, lane, lane', rfl, hl, hlane, rfl⟩ |
      ⟨rfl, ⟨k, -, rfl⟩ | ⟨-, rfl⟩ | ⟨-, rfl⟩⟩
    · refine ⟨fun x hx => ?_, ?_⟩
      · rcases List.mem_or_eq_of_mem_set hx with hx | rfl
        · exact ih.lanes x hx
        · exact Lane.step_counted (ih.lanes lane (List.mem_of_getElem? hl)) hlane
      · have htaken := @taken_setLane s lane lane' w hl
        rw [Lane.step_received hlane] at htaken
        have hgot := ih.got
        change s.merger.got ≤ (s.setLane w lane').taken
        omega
    · exact ih.drain k
    · exact ⟨ih.lanes, ih.got⟩
    · exact ⟨ih.lanes, Nat.zero_le _⟩

/-- At most eight workers, each within its budget. -/
theorem Run.got_le (h : Run cfg meets s) :
    s.merger.got ≤ 8 * (MAX_EXPANSIONS_PER_WORKER + 1) := by
  have hreceived : ∀ lane ∈ s.lanes, lane.received.length ≤ MAX_EXPANSIONS_PER_WORKER + 1 := by
    intro lane hl
    have hkept := congrArg List.length (h.flow.lanes lane hl).kept
    have hcounted := h.counted.lanes lane hl
    have hdone := hcounted.done
    have hexp := hcounted.expansions
    rw [List.length_append, List.length_append, ← h.tallied.evaluated lane hl] at hkept
    omega
  have hlanes : s.lanes.length ≤ 8 := h.flow.length ▸ Nat.min_le_right ..
  have hsum := List.sum_le_card_nsmul (s.lanes.map (·.received.length))
    (MAX_EXPANSIONS_PER_WORKER + 1) (List.forall_mem_map.mpr hreceived)
  rw [List.length_map, smul_eq_mul] at hsum
  exact h.counted.got.trans (hsum.trans (Nat.mul_le_mul_right _ hlanes))

/-- An action overflows exactly where it prunes an extension of its prefix by
minima that do not fit. -/
theorem Run.overflows_iff (h : Run cfg meets s) (action : SearchAction) :
    s.Overflows cfg action ↔ ¬ s.MinimaFit cfg action := by
  cases action with
  | worker w seen =>
    simp only [Overflows, MinimaFit]
    push Not
    constructor
    · rintro ⟨lane, hl, hover⟩
      obtain ⟨ops, word, hworks, hfit⟩ :=
        (Lane.overflows_iff (h.counted.lanes lane (List.mem_of_getElem? hl))).mp hover
      exact ⟨lane, ops, word, hl, hworks, hfit⟩
    · rintro ⟨lane, ops, word, hl, hworks, hfit⟩
      exact ⟨lane, hl, (Lane.overflows_iff (h.counted.lanes lane (List.mem_of_getElem? hl))).mpr
        ⟨ops, word, hworks, hfit⟩⟩
  | merger =>
    refine iff_of_false (fun hover => ?_) (not_not.mpr trivial)
    simp only [Overflows] at hover
    split at hover
    · obtain ⟨lane, -, hadd⟩ := hover
      have hgot := h.got_le
      have htake : lane.take.length ≤ DRAIN_BATCH := by simp [Lane.take]
      unfold MAX_EXPANSIONS_PER_WORKER at hgot
      unfold DRAIN_BATCH at htake
      rw [checkedAdd, if_pos (by unfold u64Max; omega)] at hadd
      cases hadd
    · exact hover

end Search

-- ---------------------------------------------------------------------------
-- The superoptimizer
-- ---------------------------------------------------------------------------

theorem tileMaxOf_le (hw : HardwareModel) (shape : Shape) (axis : Nat) (h : 0 < hw.maxTile) :
    Wpa.tileMaxOf hw shape axis ≤ hw.maxTile := by
  unfold Wpa.tileMaxOf
  split
  · exact h
  · exact max_le (Nat.gcd_le_right _ h) h

theorem emitOpBounds_loopsFit (a : IrArena) (info : Wpa.TensorOpInfo) :
    (Wpa.emitOpBounds a .reference info).LoopsFit where
  tiles d := by
    have hdim : (Wpa.emitOpBounds a .reference info).tileMax.dim d ≤ 256 := by
      unfold Tile.dim
      split <;> exact tileMaxOf_le _ _ _ (by decide)
    unfold u32Max
    omega
  levels := by
    simp only [Wpa.emitOpBounds]
    split <;> decide

/-- No loop over a domain and no action of any run overflows. -/
structure SuperoptimizeFits (a : IrArena) : Prop where
  loops : ∀ b ∈ (truncatePolytope (extractPolytope a .reference)).opBounds, b.LoopsFit
  actions : ∀ workers s action, Search.Reachable (searchOf a workers true) s →
    ¬ s.Overflows (searchOf a workers true) action

/-- No run of the search prunes by minima that do not fit. -/
def PrunesFit (a : IrArena) : Prop :=
  ∀ workers s action, Search.Reachable (searchOf a workers true) s →
    s.MinimaFit (searchOf a workers true) action

theorem superoptimize_fits_iff (a : IrArena) : SuperoptimizeFits a ↔ PrunesFit a := by
  constructor
  · intro h workers s action hs
    exact not_not.mp (mt (Search.Run.overflows_iff hs action).mpr (h.actions workers s action hs))
  · intro h
    refine ⟨fun b hb => ?_, fun workers s action hs hover => ?_⟩
    · obtain ⟨info, -, rfl⟩ := (searchOf_extracted a 1 true).bounds b hb
      exact emitOpBounds_loopsFit a info
    · exact (Search.Run.overflows_iff hs action).mp hover (h workers s action hs)

theorem minimaFrom_le {d e : Nat} (h : d ≤ e) : poly.minimaFrom e ≤ poly.minimaFrom d := by
  have hdrop : (poly.opMinHbm.take poly.opCount).drop e =
      ((poly.opMinHbm.take poly.opCount).drop d).drop (e - d) := by
    rw [List.drop_drop, Nat.add_sub_cancel' h]
  rw [minimaFrom, hdrop]
  exact (List.drop_sublist _ _).sum_le_sum fun _ _ => Nat.zero_le _

/-- Every prefix has an op, so the minima from the third one on are enough. -/
theorem prunesFit_of_minima {a : IrArena}
    (h : (truncatePolytope (extractPolytope a .reference)).minimaFrom 2 ≤ u64Max) : PrunesFit a := by
  intro workers s action hs
  cases action with
  | merger => trivial
  | worker w seen =>
    intro lane ops word hl hworks _ _ _ _
    have hsound := (hs.collects.lanes lane (List.mem_of_getElem? hl)).sound
    have hopen : ops ∈ lane.worker.openPrefixes := by
      unfold Lane.worksOn at hworks
      split at hworks
      · next hp =>
        obtain ⟨ops', hops, heq⟩ := Option.map_eq_some_iff.mp hworks
        cases heq
        unfold Worker.worksOn at hops
        split at hops
        · cases hops
        · next hstack =>
          have htop : ops ∈ lane.worker.stack := by
            split at hops
            · cases hops
            · split at hops
              · cases hops
              · cases hops
                exact hstack ▸ List.mem_cons_self
          simpa [Worker.openPrefixes, hp] using htop
      · next hp =>
        obtain ⟨_, -, heq⟩ := Option.map_eq_some_iff.mp hworks
        cases heq
        simp [Worker.openPrefixes, hp]
      · cases hworks
    have hpos := List.length_pos_of_ne_nil (hsound.feasible ops hopen).2
    exact (minimaFrom_le (by omega)).trans h

-- ---------------------------------------------------------------------------
-- The second tier
-- ---------------------------------------------------------------------------

/-- Neither the fusion search nor the superoptimizer overflows. -/
structure Tier2Fits (a : IrArena) : Prop where
  fusion : Fusion.SearchFits a
  superoptimize : SuperoptimizeFits a

/-- Slots are numbered by `u32`s. -/
theorem tier2_fits_iff {src : String} {capacity : Nat} {a : IrArena}
    (h : parseArena src capacity = .ok a) (hslots : a.slotCount < 2 ^ 32) :
    Tier2Fits a ↔ Fusion.EdgesFit a ∧ PrunesFit a := by
  have hfusion := Fusion.search_fits_iff (parseArena_unfreed h) hslots
  have hsuper := superoptimize_fits_iff a
  exact ⟨fun hfits => ⟨hfusion.mp hfits.fusion, hsuper.mp hfits.superoptimize⟩,
    fun hfits => ⟨hfusion.mpr hfits.1, hsuper.mpr hfits.2⟩⟩

theorem exists_parsed {src : String} {capacity : Nat} {p : IrArena → Bool}
    (h : (parseArena src capacity).toOption.any p = true) :
    ∃ a, parseArena src capacity = .ok a ∧ p a = true := by
  cases ha : parseArena src capacity with
  | ok a => exact ⟨a, rfl, by simpa [ha, Except.toOption] using h⟩
  | error e => simp [ha, Except.toOption] at h

def squareSource : String :=
  "xir v1 func @main \x7b\n%0 = param 0 : tensor<f64>[3,3]\n" ++
  "%1 = matmul ta=false tb=false %0, %0 : tensor<f64>[3,3]\n\x7d\n"

/-- Two reads of 72 bytes cross. -/
theorem tier2_fits_iff_square : ∃ a, parseArena squareSource 64 = .ok a ∧ verify a = .ok () ∧
    Fusion.crossingBytes a .a = 144 ∧ Tier2Fits a := by
  obtain ⟨a, ha, hp⟩ := @exists_parsed squareSource 64 (fun a => verify a = .ok () ∧
    a.slotCount < 2 ^ 32 ∧ Fusion.universeCodes.map (Fusion.crossingBytes a) = [144, 144, 144] ∧
    Fusion.arithmetic a = 129 ∧
    (truncatePolytope (extractPolytope a .reference)).minimaFrom 2 = 0) (by decide +kernel)
  obtain ⟨hverify, hslots, hcrossing, harithmetic, hminima⟩ := of_decide_eq_true hp
  simp only [Fusion.universeCodes, List.map_cons, List.map_nil, List.cons.injEq, and_true] at hcrossing
  obtain ⟨hca, hcb, hcc⟩ := hcrossing
  refine ⟨a, ha, hverify, hca, (tier2_fits_iff ha hslots).mpr ⟨⟨fun u => ?_, .inl ⟨.a, ?_⟩⟩, ?_⟩⟩
  · cases u <;> simp [hca, hcb, hcc, u64Max]
  · simp [hca, harithmetic, u64Max]
  · exact prunesFit_of_minima (by simp [hminima])

/-- A parameter of `2^64` elements, whose size saturates, read four times. -/
def hugeSource : String :=
  "xir v1 func @main \x7b\n%0 = param 0 : tensor<f64>[4294967296,4294967296]\n" ++
  "%1 = matmul ta=false tb=false %0, %0 : tensor<f64>[4294967296,4294967296]\n" ++
  "%2 = matmul ta=false tb=false %0, %0 : tensor<f64>[4294967296,4294967296]\n\x7d\n"

/-- The first worker to score a universe panics. -/
theorem huge_not_fits : ∃ a, parseArena hugeSource 64 = .ok a ∧ verify a = .ok () ∧
    Fusion.Returns a false ⟨0, by decide⟩ 1 (.error .panic) ∧ ¬ Tier2Fits a := by
  obtain ⟨a, ha, hp⟩ := @exists_parsed hugeSource 64 (fun a => verify a = .ok () ∧
    Fusion.scoreUniverse a .a false = none) (by decide +kernel)
  obtain ⟨hverify, hscore⟩ := of_decide_eq_true hp
  have hplan : Fusion.plan false ⟨0, by decide⟩ 1 = .ok [[(0, .a), (1, .b), (2, .c)]] := rfl
  have hrun : Transition.run (Fusion.Scoring.step a) (.start [[(0, .a), (1, .b), (2, .c)]])
      [(0, false)] = some ((Fusion.Scoring.start [[(0, .a), (1, .b), (2, .c)]]).move 0
        ⟨[(0, .a), (1, .b), (2, .c)], .load⟩ (.evaluate false)) := rfl
  have hreturns : Fusion.Returns a false ⟨0, by decide⟩ 1 (.error .panic) :=
    .panicked hplan (Transition.reachable_of_run (fun _ _ => trivial) .start hrun)
      ⟨_, List.mem_singleton_self _, 0, .a, _, false, rfl, rfl, hscore⟩
  exact ⟨a, ha, hverify, hreturns, fun hfits => hfits.fusion.returns _ _ _ _ hreturns rfl⟩

end Sxla
