import Sxla.Supertensor.Search

/-!
# What the merger has seen when it stops

Records travel in order and are never dropped by a channel, so what is left
behind is what a worker published after the merger had looked at its channel
for the last time.
-/

namespace Sxla

-- ---------------------------------------------------------------------------
-- A lane's actions
-- ---------------------------------------------------------------------------

namespace Worker

variable {cfg : SearchConfig} {wk : Worker} {ops : List PackedOpSched} {word : Nat}

/-- Inside the loop or on the way out of it. -/
def Busy (wk : Worker) : Prop := wk.phase ≠ .marking ∧ wk.phase ≠ .ended

theorem work_busy : (wk.work cfg ops).1.Busy := by
  unfold work
  split
  · split
    · simp [giveUp, Busy]
    · simp only
      split <;> simp [Busy]
  · simp [Busy]

theorem pop_busy : (wk.pop cfg).1.Busy := by
  unfold pop
  split
  · simp [Busy]
  · simp only
    split
    · simp [giveUp, Busy]
    · split
      · simp [Busy]
      · exact work_busy

theorem poll_busy : (wk.poll cfg ops word).1.Busy := work_busy

end Worker

namespace Lane

variable {cfg : SearchConfig} {lane lane' : Lane} {word : Option Nat}

theorem put_cases {r : Worker × Option FrontierPoint} (h : lane.put r = some lane') :
    r.2 = none ∧ lane' = { lane with worker := r.1 } ∨
      ∃ p, r.2 = some p ∧ lane' = { lane with worker := r.1 }.send p := by
  obtain ⟨wk, o⟩ := r
  cases o with
  | none =>
    cases h
    exact .inl ⟨rfl, rfl⟩
  | some p =>
    simp only [put] at h
    split at h
    · cases h
      exact .inr ⟨p, rfl, rfl⟩
    · cases h

/-- What a worker does in its lane: one pass through its loop, with or
without a fresh anchor, or its end. -/
theorem step_cases (h : lane.step cfg word = some lane') :
    (∃ r, lane.put r = some lane' ∧ r.1.Busy ∧
      (lane.worker.phase = .looping ∧ r = lane.worker.pop cfg ∨
        ∃ ops w, lane.worker.phase = .polling ops ∧ word = some w ∧
          r = lane.worker.poll cfg ops w)) ∨
    lane.worker.phase = .flushing ∧ lane' = lane.publish.enter .marking ∨
    lane.worker.phase = .marking ∧ lane' = lane.enter .ended := by
  unfold step at h
  split at h
  · next hp => exact .inl ⟨_, h, Worker.pop_busy, .inl ⟨hp, rfl⟩⟩
  · next ops hp =>
    obtain ⟨w, hw, h⟩ := Option.bind_eq_some_iff.mp h
    exact .inl ⟨_, h, Worker.poll_busy, .inr ⟨ops, w, hp, hw, rfl⟩⟩
  · next hp =>
    cases h
    exact .inr (.inl ⟨hp, rfl⟩)
  · next hp =>
    cases h
    exact .inr (.inr ⟨hp, rfl⟩)
  · cases h

-- ---------------------------------------------------------------------------
-- The channel
-- ---------------------------------------------------------------------------

/-- Nothing is lost or reordered on the way, a worker past its flush holds
nothing back, and what was published late is still there. -/
structure Flow (lane : Lane) : Prop where
  kept : lane.received ++ lane.ready ++ lane.pending = lane.sent
  flushed : ¬ lane.worker.Busy → lane.pending = []
  late_ready : lane.late = true → lane.ready ≠ []

theorem start_flow (w : Nat) : (start cfg w).Flow := by
  constructor <;> simp [start]

@[simp] theorem publish_worker : lane.publish.worker = lane.worker := by
  unfold publish
  split <;> rfl

@[simp] theorem publish_pending : lane.publish.pending = [] := by
  unfold publish
  split
  · assumption
  · rfl

theorem Flow.publish (h : lane.Flow) : lane.publish.Flow := by
  unfold Lane.publish
  split
  · exact h
  · next hne =>
    constructor
    · simpa using h.kept
    · simp
    · simp [hne]

theorem Flow.send (h : lane.Flow) (hb : lane.worker.Busy) {p : FrontierPoint} :
    (lane.send p).Flow := by
  have hs : Flow { lane with pending := lane.pending ++ [p], sent := lane.sent ++ [p] } := by
    constructor
    · simp [← h.kept]
    · exact fun hn => absurd hb hn
    · exact h.late_ready
  unfold Lane.send
  simp only
  split
  · exact hs.publish
  · exact hs

theorem Flow.setWorker (h : lane.Flow) {wk : Worker} (hb : wk.Busy) :
    Flow { lane with worker := wk } :=
  ⟨h.kept, fun hn => absurd hb hn, h.late_ready⟩

theorem Flow.step (h : lane.Flow) (hs : lane.step cfg word = some lane') : lane'.Flow := by
  rcases step_cases hs with ⟨r, hput, hb, _⟩ | ⟨_, rfl⟩ | ⟨hm, rfl⟩
  · rcases put_cases hput with ⟨_, rfl⟩ | ⟨p, _, rfl⟩
    · exact h.setWorker hb
    · exact (h.setWorker hb).send hb
  · refine ⟨h.publish.kept, fun _ => publish_pending, h.publish.late_ready⟩
  · refine ⟨h.kept, fun _ => h.flushed ?_, h.late_ready⟩
    simp [Worker.Busy, hm]

theorem Flow.taken (h : lane.Flow) : lane.taken.Flow := by
  refine ⟨?_, h.flushed, by simp [Lane.taken]⟩
  simp only [Lane.taken, take, List.append_assoc]
  rw [← List.append_assoc (lane.ready.take _), List.take_append_drop, ← h.kept,
    List.append_assoc]

/-- A publication marks the lane late. -/
theorem publish_late (h : lane.late = false → lane.ready = []) (hl : lane.publish.late = false) :
    lane.publish.ready = [] := by
  unfold Lane.publish at hl ⊢
  split at hl
  · next he => simpa [he] using h hl
  · cases hl

theorem step_late (h : lane.late = false → lane.ready = []) (hs : lane.step cfg word = some lane')
    (hl : lane'.late = false) : lane'.ready = [] := by
  rcases step_cases hs with ⟨r, hput, _, _⟩ | ⟨_, rfl⟩ | ⟨_, rfl⟩
  · rcases put_cases hput with ⟨_, rfl⟩ | ⟨p, _, rfl⟩
    · exact h hl
    · unfold Lane.send at hl ⊢
      simp only at hl ⊢
      split at hl
      · next hlen =>
        rw [if_pos hlen]
        exact publish_late h hl
      · next hlen =>
        rw [if_neg hlen]
        exact h hl
  · exact publish_late h hl
  · exact h hl

def hasEnded (lane : Lane) : Bool := lane.worker.phase = .ended

/-- Only the last action ends a worker. -/
theorem step_ended (hs : lane.step cfg word = some lane') :
    lane.hasEnded = false ∧ lane'.hasEnded = Search.marks lane := by
  rcases step_cases hs with ⟨r, hput, hb, hr⟩ | ⟨hf, rfl⟩ | ⟨hm, rfl⟩
  · have hphase : lane.hasEnded = false ∧ Search.marks lane = false := by
      rcases hr with ⟨hp, _⟩ | ⟨_, _, hp, _⟩ <;> simp [hasEnded, Search.marks, hp]
    have hw : lane'.worker = r.1 := by
      rcases put_cases hput with ⟨_, rfl⟩ | ⟨p, _, rfl⟩
      · rfl
      · unfold Lane.send
        simp only
        split
        · exact publish_worker
        · rfl
    refine ⟨hphase.1, ?_⟩
    simpa [hphase.2, hasEnded, hw] using hb.2
  · simp [hasEnded, Search.marks, hf, enter]
  · simp [hasEnded, Search.marks, hm, enter]

end Lane

-- ---------------------------------------------------------------------------
-- The whole search
-- ---------------------------------------------------------------------------

/-- The merger has looked at the lane in the current pass. -/
def MergerPhase.Passed (i : Nat) : MergerPhase → Prop
  | .draining k => i < k
  | _ => True

namespace Search

variable {cfg : SearchConfig} {s t : Search} {lane : Lane} {meets : Search → SearchAction → Prop}

structure Flow (cfg : SearchConfig) (s : Search) : Prop where
  length : s.lanes.length = cfg.nWorkers
  lanes : ∀ lane ∈ s.lanes, lane.Flow
  done : s.done = s.lanes.countP Lane.hasEnded
  passed : ∀ i lane, s.lanes[i]? = some lane → s.merger.phase.Passed i → lane.late = false →
    lane.ready = []
  ended : s.ended = true → s.done = cfg.nWorkers
  draining : ∀ k, s.merger.phase = .draining k → k ≤ cfg.nWorkers

theorem start_flow : (start cfg).Flow cfg where
  length := by simp [start]
  lanes := by
    simp only [start, List.mem_map]
    rintro _ ⟨w, _, rfl⟩
    exact Lane.start_flow w
  done := by
    symm
    simp [start, List.countP_eq_zero, Lane.hasEnded, Lane.start, Worker.start]
  passed := by
    intro i lane _ hp
    exact absurd hp (Nat.not_lt_zero i)
  ended := by simp [ended, start]
  draining := by
    intro k hk
    cases hk
    exact Nat.zero_le _

theorem Flow.worker {w seen : Nat} {lane' : Lane} (h : s.Flow cfg) (hl : s.lanes[w]? = some lane)
    (hs : lane.step cfg s.published[seen]? = some lane') :
    ({ s.setLane w lane' with done := s.done + if marks lane then 1 else 0 } : Search).Flow cfg := by
  obtain ⟨hw, hget⟩ := List.getElem?_eq_some_iff.mp hl
  obtain ⟨hbefore, hafter⟩ := Lane.step_ended hs
  have hdone : s.done + (if marks lane then 1 else 0) =
      (s.lanes.set w lane').countP Lane.hasEnded := by
    simp [List.countP_set hw, hget, hbefore, hafter, h.done]
  refine ⟨by simpa [setLane] using h.length, fun x hx => ?_, hdone, fun i x hx hp hlate => ?_,
    fun he => ?_, h.draining⟩
  · rcases List.mem_or_eq_of_mem_set hx with hx | rfl
    · exact h.lanes x hx
    · exact (h.lanes lane (List.mem_of_getElem? hl)).step hs
  · simp only [setLane, List.getElem?_set] at hx
    split at hx
    · next hi =>
      subst hi
      simp only [Option.some.injEq] at hx
      subst hx
      exact Lane.step_late (h.passed w lane hl hp) hs hlate
    · exact h.passed i x hx hp hlate
  · -- No worker is left to act once the merger has ended.
    have hall : s.lanes.countP Lane.hasEnded = s.lanes.length := by
      rw [← h.done, h.length, h.ended he]
    have hended := List.countP_eq_length.mp hall lane (List.mem_of_getElem? hl)
    rw [hbefore] at hended
    cases hended

theorem Flow.setPhase (h : s.Flow cfg) {phase : MergerPhase}
    (hp : ∀ i lane, s.lanes[i]? = some lane → phase.Passed i → lane.late = false → lane.ready = [])
    (he : phase = .ended → s.done = cfg.nWorkers)
    (hd : ∀ k, phase = .draining k → k ≤ cfg.nWorkers) : (s.setPhase phase).Flow cfg :=
  ⟨h.length, h.lanes, h.done, hp, fun hend => he (of_decide_eq_true hend),
    hd⟩

/-- The merger's look at a channel leaves the others alone. -/
theorem Flow.taken {k : Nat} (h : s.Flow cfg) (hl : s.lanes[k]? = some lane) :
    (s.setLane k lane.taken).lanes.length = cfg.nWorkers ∧
      (∀ x ∈ (s.setLane k lane.taken).lanes, x.Flow) ∧
      s.done = (s.setLane k lane.taken).lanes.countP Lane.hasEnded := by
  obtain ⟨hk, hget⟩ := List.getElem?_eq_some_iff.mp hl
  refine ⟨by simpa [setLane] using h.length, fun x hx => ?_, ?_⟩
  · rcases List.mem_or_eq_of_mem_set hx with hx | rfl
    · exact h.lanes x hx
    · exact (h.lanes lane (List.mem_of_getElem? hl)).taken
  · have hsame : lane.taken.hasEnded = lane.hasEnded := rfl
    have hpos : lane.hasEnded = true → 0 < s.lanes.countP Lane.hasEnded := fun he =>
      List.countP_pos_iff.mpr ⟨lane, List.mem_of_getElem? hl, he⟩
    simp only [setLane, List.countP_set hk, hget, hsame, ← h.done] at hpos ⊢
    split
    · next he => exact (Nat.sub_add_cancel (hpos he)).symm
    · rfl

theorem Flow.drain {k : Nat} (h : s.Flow cfg) (hk : s.merger.phase = .draining k) :
    (s.drain k).Flow cfg := by
  unfold Search.drain
  split
  · next hnone =>
    have hall : cfg.nWorkers ≤ k := by
      rw [← h.length]
      exact List.getElem?_eq_none_iff.mp hnone
    refine h.setPhase (fun i lane hl _ => h.passed i lane hl ?_) nofun nofun
    rw [hk]
    exact ((List.getElem?_eq_some_iff.mp hl).1.trans_eq h.length).trans_le hall
  · next lane hl =>
    obtain ⟨hlen, hlanes, hdone⟩ := h.taken hl
    have hlt := (List.getElem?_eq_some_iff.mp hl).1.trans_eq h.length
    have hother : ∀ i x, (s.setLane k lane.taken).lanes[i]? = some x → i < k → x.late = false →
        x.ready = [] := by
      intro i x hx hi
      simp only [setLane, List.getElem?_set, Nat.ne_of_gt hi, ↓reduceIte] at hx
      exact h.passed i x hx (hk ▸ hi)
    split
    · next hready =>
      refine ⟨hlen, hlanes, hdone, fun i x hx hp => ?_, nofun, ?_⟩
      · rcases Nat.lt_succ_iff_lt_or_eq.mp hp with hi | rfl
        · exact hother i x hx hi
        · have hi := hlt
          rw [← h.length] at hi
          simp only [Search.setPhase, setLane, List.getElem?_set, hi, ↓reduceIte,
            Option.some.injEq] at hx
          subst hx
          simp [Lane.taken, hready]
      · intro j hj
        cases hj
        exact hlt
    · refine ⟨hlen, hlanes, hdone, hother, nofun, ?_⟩
      intro j hj
      cases hj
      exact hlt.le

theorem Flow.check (h : s.Flow cfg) (hc : s.merger.phase = .checking) : (s.check cfg).Flow cfg := by
  have hpassed : ∀ (i : Nat) (lane : Lane), s.lanes[i]? = some lane → lane.late = false →
      lane.ready = [] :=
    fun i lane hl => h.passed i lane hl (hc ▸ trivial)
  unfold Search.check
  split
  · next hd => exact h.setPhase (fun i lane hl _ => hpassed i lane hl) (fun _ => hd.2) nofun
  · exact h.setPhase (fun i lane hl _ => hpassed i lane hl) nofun nofun

theorem Flow.publishAnchor (h : s.Flow cfg) : s.publishAnchor.Flow cfg := by
  refine ⟨h.length, h.lanes, h.done, fun i lane _ hp => absurd hp (Nat.not_lt_zero i), nofun, ?_⟩
  intro k hk
  cases hk
  exact Nat.zero_le _

theorem Flow.step {action : SearchAction} (h : s.Flow cfg) (hs : s.step cfg action = some t) :
    t.Flow cfg := by
  rcases step_cases hs with ⟨w, seen, lane, lane', _, hl, hlane, rfl⟩ |
    ⟨_, ⟨k, hk, rfl⟩ | ⟨hc, rfl⟩ | ⟨_, rfl⟩⟩
  · exact h.worker hl hlane
  · exact h.drain hk
  · exact h.check hc
  · exact h.publishAnchor

theorem Run.flow (h : Run cfg meets s) : s.Flow cfg := by
  induction h with
  | start => exact start_flow
  | step _ _ hs ih => exact ih.step hs

/-- The merger has inserted every record that any worker sent, in order. -/
def AllInserted (s : Search) : Prop := ∀ lane ∈ s.lanes, lane.received = lane.sent

/-- No worker has published records into its channel since the merger last
looked there. -/
def NonePublishedLate (s : Search) : Prop := ∀ lane ∈ s.lanes, lane.late = false

instance (s : Search) : Decidable s.AllInserted :=
  inferInstanceAs (Decidable (∀ lane ∈ s.lanes, _))

instance (s : Search) : Decidable s.NonePublishedLate :=
  inferInstanceAs (Decidable (∀ lane ∈ s.lanes, _))

theorem Flow.all_ended (h : s.Flow cfg) (hend : s.ended = true) :
    ∀ lane ∈ s.lanes, lane.worker.phase = .ended := by
  have hall : s.lanes.countP Lane.hasEnded = s.lanes.length := by
    rw [← h.done, h.length, h.ended hend]
  intro lane hl
  simpa [Lane.hasEnded] using List.countP_eq_length.mp hall lane hl

/-- In the end a lane's records are all there unless some came late. -/
theorem Flow.received_iff (h : s.Flow cfg) (hend : s.ended = true) (hl : lane ∈ s.lanes) :
    lane.received = lane.sent ↔ lane.late = false := by
  obtain ⟨i, hi⟩ := List.getElem?_of_mem hl
  have hended := h.all_ended hend lane hl
  have hpending := (h.lanes lane hl).flushed (by simp [Worker.Busy, hended])
  have hkept := (h.lanes lane hl).kept
  have hpassed : s.merger.phase.Passed i := by
    have hphase : s.merger.phase = .ended := by simpa [Search.ended] using hend
    rw [hphase]
    trivial
  rw [hpending, List.append_nil] at hkept
  constructor
  · intro heq
    rw [← heq, List.append_right_eq_self] at hkept
    by_contra hlate
    exact (h.lanes lane hl).late_ready (by simpa using hlate) hkept
  · intro hlate
    rw [h.passed i lane hi hpassed hlate, List.append_nil] at hkept
    exact hkept

/-- When the merger has broken out of its loop, every record was inserted
exactly if no channel was published to behind its back. -/
theorem allInserted_iff (h : Reachable cfg s) (hend : s.ended = true) :
    s.AllInserted ↔ s.NonePublishedLate :=
  forall₂_congr fun _ hl => h.flow.received_iff hend hl

-- ---------------------------------------------------------------------------
-- A lost record
-- ---------------------------------------------------------------------------

/-- One op with one schedule. -/
def unitPolytope : SchedulePolytope where
  opBounds := [⟨.pack 0 0 .graph, ⟨1, 1, 1⟩, ⟨1, 1, 1⟩, .reg, .reg, [], 1⟩]
  globalConstraints := ⟨[]⟩
  divisibilityConstraints := []
  hw := .reference
  opFlops := [1]
  opOutBytes := [8]
  opInBytes := [8]
  opMinHbm := [0]

def unitConfig : SearchConfig := ⟨unitPolytope, 1, true⟩

/-- The worker runs between the merger's look at its channel and the load of
`done`. -/
def overtaken : List SearchAction :=
  [SearchAction.merger, .merger] ++ List.replicate 4 (SearchAction.worker 0 0) ++
    [SearchAction.merger]

def lostRun : Search := ((start unitConfig).exec unitConfig overtaken).getD (start unitConfig)

theorem lostRun_reachable : Reachable unitConfig lostRun :=
  @run_exec unitConfig _ _ overtaken .start rfl

theorem allInserted_iff_lostRun : lostRun.AllInserted ↔ lostRun.NonePublishedLate :=
  allInserted_iff lostRun_reachable rfl

theorem lostRun_not_allInserted :
    Reachable unitConfig lostRun ∧ lostRun.ended = true ∧ ¬ lostRun.AllInserted :=
  ⟨lostRun_reachable, rfl, by decide⟩

end Search

end Sxla
