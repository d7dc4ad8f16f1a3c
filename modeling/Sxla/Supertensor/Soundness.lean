import Sxla.Library.Checked
import Sxla.Supertensor.Coverage
import Sxla.Supertensor.Gate
import Sxla.Supertensor.Pruning

/-!
# What the frontier offers the gate

A complete schedule the enumeration accepts passes every check of the gate
but the SRAM pressure, which no prefix check looks at.
-/

namespace Sxla

open Checked SchedulePolytope

variable {a : IrArena} {poly : SchedulePolytope} {full : List PackedOpSched} {s : PackedOpSched}
  {b : OpBounds}

-- ---------------------------------------------------------------------------
-- One op
-- ---------------------------------------------------------------------------

theorem mem_divisorsFrom {lo hi t : Nat} (h : t ∈ divisorsFrom lo hi) : lo ≤ t ∧ t ≤ hi := by
  simp only [divisorsFrom, List.mem_filter, List.mem_range, Bool.and_eq_true,
    decide_eq_true_eq] at h
  exact ⟨h.2.1, Nat.le_of_lt_succ h.1⟩

theorem tileInRange_of_mem {t : Tile} (h : t ∈ b.tiles) : b.tileInRange t = true := by
  simp only [OpBounds.tiles, List.mem_flatMap, List.mem_map] at h
  obtain ⟨t0, h0, t1, h1, t2, h2, rfl⟩ := h
  have h0 := mem_divisorsFrom h0
  have h1 := mem_divisorsFrom h1
  have h2 := mem_divisorsFrom h2
  simp [OpBounds.tileInRange, Tile.dim, h0, h1, h2]

/-- What a prefix accepted at full depth says of each op. -/
theorem Candidate.op (hc : Candidate poly full) {i : Nat} (hs : full[i]? = some s)
    (hb : poly.opBounds[i]? = some b) : s ∈ b.domain ∧ feasibleOp b s = true := by
  have hlt := (List.getElem?_eq_some_iff.mp hs).1
  have hchecked := hc.checked full.length (by omega) le_rfl
  rw [List.take_length] at hchecked
  simp only [feasiblePrefix, List.take_length, Bool.and_eq_true, List.all_eq_true,
    Prod.forall] at hchecked
  obtain ⟨b', hb', hdomain⟩ := mem_opDomain.mp (hc.drawn i s hs)
  rw [hb] at hb'
  cases hb'
  have hop := hchecked.1.1 s i (List.mem_zipIdx_iff_getElem?.mpr hs)
  rw [hb] at hop
  exact ⟨hdomain, hop⟩

theorem checkOp_ok {i : Nat} (hs : s ∈ b.domain) (hf : feasibleOp b s = true) :
    checkOp b i s = .ok () := by
  obtain ⟨mem, _, tile, htile, fuse, _, vw, _, rfl⟩ := mem_domain.mp hs
  simp only [feasibleOp, Bool.and_eq_true] at hf
  obtain ⟨⟨⟨_, hmem⟩, hwidth⟩, hfuse⟩ := hf
  have htile := tileInRange_of_mem htile
  simp [checkOp, htile, hmem, hwidth, hfuse, pure, Except.pure]

-- ---------------------------------------------------------------------------
-- The whole schedule
-- ---------------------------------------------------------------------------

theorem Candidate.opsOk (hc : Candidate poly full) :
    ((poly.opBounds.zip full).zipIdx.forM fun ((b, s), i) => checkOp b i s) = .ok () := by
  refine forM_ok.mpr ?_
  rintro ⟨⟨b, s⟩, i⟩ hmem
  rw [List.mem_zipIdx_iff_getElem?, List.getElem?_zip_eq_some] at hmem
  obtain ⟨hdomain, hfeasible⟩ := hc.op hmem.2 hmem.1
  exact checkOp_ok hdomain hfeasible

/-- The prefix check at full depth. -/
theorem Candidate.accepted (hc : Candidate poly full) (hne : full ≠ []) :
    feasiblePrefix poly full poly.opCount = true := by
  have hpos := List.length_pos_iff.mpr hne
  have hchecked := hc.checked full.length hpos le_rfl
  rwa [List.take_length, hc.length] at hchecked

theorem Candidate.divsOk (hx : poly.NamesOps) (hc : Candidate poly full) (hne : full ≠ []) :
    poly.divisibilityConstraints.forM (checkDiv full) = .ok () := by
  have hfull := hc.accepted hne
  simp only [feasiblePrefix, Bool.and_eq_true, List.all_eq_true] at hfull
  refine forM_ok.mpr fun d hd => ?_
  have hholds := hfull.1.2 d hd
  have hlt : decide (d.opIndex < poly.opCount) = true := decide_eq_true (hx.divs d hd)
  rw [hlt, Bool.not_true, Bool.false_or] at hholds
  exact unless_ok.mpr hholds

theorem Candidate.rowsOk (hx : poly.NamesOps) (hc : Candidate poly full) (hne : full ≠ []) :
    poly.globalConstraints.checkFull full = true := by
  have hfull := hc.accepted hne
  simp only [feasiblePrefix, Bool.and_eq_true] at hfull
  have hrows := hfull.2
  simp only [SparseLinearSystem.checkPartial, List.all_eq_true] at hrows
  refine List.all_eq_true.mpr fun row hrow => ?_
  have hbound : row.bound poly.opCount = true :=
    List.all_eq_true.mpr fun e he => decide_eq_true (hx.rows row hrow e he)
  simpa [hbound] using hrows row hrow

/-- The full check comes down to the pressure. -/
theorem Candidate.checkFull_iff (hx : poly.Extracted a) (hc : Candidate poly full)
    (hne : full ≠ []) : poly.checkFull full = .ok () ↔ poly.pressure full ≤ poly.hw.sramCapBytes := by
  have hlength : full.length = poly.opBounds.length := hc.length
  unfold checkFull
  rw [if_pos hlength, hc.opsOk, hc.divsOk hx.namesOps hne, if_pos (hc.rowsOk hx.namesOps hne)]
  by_cases hp : poly.pressure full ≤ poly.hw.sramCapBytes
  · simp [hp, bind, Except.bind, pure, Except.pure]
  · simp [hp, bind, Except.bind, throw, throwThe, MonadExceptOf.throw]

/-- Fusion targets are drawn from the legal ones. -/
theorem Candidate.fusesOk (hx : poly.Extracted a) (hc : Candidate poly full) :
    (full.zipIdx.forM fun (s, i) => verifyFuse a s i) = .ok () := by
  refine forM_ok.mpr ?_
  rintro ⟨s, i⟩ hmem
  have hs := List.mem_zipIdx_iff_getElem?.mp hmem
  obtain ⟨b, hb, hdomain⟩ := mem_opDomain.mp (hc.drawn i s hs)
  obtain ⟨info, _, rfl⟩ := hx.bounds b (List.mem_of_getElem? hb)
  obtain ⟨mem, _, tile, _, fuse, hfuse, vw, _, rfl⟩ := mem_domain.mp hdomain
  refine unless_ok.mpr ?_
  rcases List.mem_cons.mp hfuse with rfl | hfuse
  · simp [PackedOpSched.fused]
  · have hlegal := (List.mem_filter.mp hfuse).2
    rw [Bool.or_eq_true]
    exact .inr hlegal

/-- A complete schedule passes the gate exactly if it fits in SRAM. -/
theorem Candidate.verify_iff (hx : poly.Extracted a) (hc : Candidate poly full) (hne : full ≠ []) :
    verifyCandidate a poly full = .ok () ↔ poly.pressure full ≤ poly.hw.sramCapBytes := by
  have hlength : full.length = poly.opCount := hc.length
  rw [← hc.checkFull_iff hx hne]
  unfold verifyCandidate
  rw [hc.fusesOk hx, if_pos hlength]
  cases poly.checkFull full <;> simp [Except.mapError, bind, Except.bind, pure, Except.pure]

-- ---------------------------------------------------------------------------
-- What reached the frontier
-- ---------------------------------------------------------------------------

namespace Worker

variable {cfg : SearchConfig} {wk : Worker} {ops : List PackedOpSched} {word : Nat}

/-- One pass evaluates what it sends and prunes under an anchor only. -/
def Tally (wk : Worker) (r : Worker × Option FrontierPoint) : Prop :=
  r.1.evaluated = wk.evaluated + r.2.toList.length ∧
    (r.1.pruned ≠ 0 → wk.pruned ≠ 0 ∨ wk.anchorWord ≠ ANCHOR_NONE)

theorem work_tally : wk.Tally (wk.work cfg ops) := by
  unfold Tally work
  split
  · split
    · exact ⟨rfl, .inl⟩
    · simp only
      split
      · next hanch =>
        simp only [anchored, Bool.and_eq_true, bne_iff_ne] at hanch
        exact ⟨rfl, fun _ => .inr hanch.1.2⟩
      · exact ⟨rfl, .inl⟩
  · exact ⟨rfl, .inl⟩

theorem pop_tally : wk.Tally (wk.pop cfg) := by
  unfold pop
  split
  · exact ⟨rfl, .inl⟩
  · simp only
    split
    · exact ⟨rfl, .inl⟩
    · split
      · exact ⟨rfl, .inl⟩
      · exact @work_tally cfg { wk with stack := _, expansions := wk.expansions + 1 } _

end Worker

/-- A lane's evaluations are on record, and it prunes under an anchor only. -/
theorem Lane.step_tally {cfg : SearchConfig} {lane lane' : Lane} {word : Option Nat} {P : Prop}
    (hs : lane.step cfg word = some lane') (he : lane.worker.evaluated = lane.sent.length)
    (hlane : lane.worker.pruned ≠ 0 ∨ lane.worker.anchorWord ≠ ANCHOR_NONE → P)
    (hword : ∀ x, word = some x → x ≠ ANCHOR_NONE → P) :
    lane'.worker.evaluated = lane'.sent.length ∧
      (lane'.worker.pruned ≠ 0 ∨ lane'.worker.anchorWord ≠ ANCHOR_NONE → P) := by
  rcases step_cases hs with ⟨r, hput, _, ⟨_, rfl⟩ | ⟨ops, x, _, rfl, rfl⟩⟩ | ⟨_, rfl⟩ | ⟨_, rfl⟩
  · obtain ⟨hworker, hsent, _⟩ := put_fields hput
    obtain ⟨heval, hpruned⟩ := @Worker.pop_tally cfg lane.worker
    rw [hworker, hsent, heval, he, List.length_append, Worker.pop_anchorWord]
    refine ⟨rfl, fun h => hlane ?_⟩
    exact h.elim hpruned .inr
  · obtain ⟨hworker, hsent, _⟩ := put_fields hput
    obtain ⟨heval, hpruned⟩ := @Worker.work_tally cfg { lane.worker with anchorWord := x } ops
    unfold Worker.poll at hworker hsent
    refine ⟨?_, fun h => ?_⟩
    · rw [hworker, heval, hsent, List.length_append, ← he]
    rw [hworker, Worker.work_anchorWord] at h
    rcases h with h | h
    · exact (hpruned h).elim (fun hp => hlane (.inl hp)) (hword x rfl)
    · exact hword x rfl h
  · simpa [enter, publish_sent] using ⟨he, hlane⟩
  · exact ⟨he, hlane⟩

namespace ParetoFrontier

variable {f : ParetoFrontier} {q : FrontierPoint} {l : List FrontierPoint}

theorem insert_ne_nil (hcap : 0 < f.cap) : (f.insert q).points ≠ [] := by
  unfold insert
  simp only
  split
  · next hrej =>
    obtain ⟨e, he, _⟩ := List.any_eq_true.mp hrej
    exact List.ne_nil_of_mem he
  · split
    · next hlen =>
      refine List.ne_nil_of_length_pos ?_
      simp only [List.length_take, List.length_mergeSort]
      omega
    · simp

theorem foldl_insert_ne_nil (hcap : 0 < f.cap) (h : f.points ≠ [] ∨ l ≠ []) :
    (l.foldl insert f).points ≠ [] := by
  induction l generalizing f with
  | nil => simpa using h
  | cons q l ih => exact ih (by simpa using hcap) (.inl (insert_ne_nil hcap))

end ParetoFrontier

namespace Search

variable {cfg : SearchConfig} {s t : Search} {lane lane' : Lane} {n : Nat} {prune : Bool}
  {meets : Search → SearchAction → Prop}

/-- What the merger's next action inserts. -/
def incoming (s : Search) : List FrontierPoint :=
  match s.merger.phase with
  | .draining k => (s.lanes[k]?.map Lane.take).getD []
  | _ => []

/-- The merger takes no schedule that overflows SRAM. -/
def FitsSram (cfg : SearchConfig) (s : Search) (action : SearchAction) : Prop :=
  action = .merger →
    ∀ p ∈ s.incoming, cfg.poly.pressure p.sched ≤ cfg.poly.hw.sramCapBytes

instance (cfg : SearchConfig) : DecidableRel (FitsSram cfg) := fun s action => by
  unfold FitsSram
  infer_instance

theorem step_inserted {action : SearchAction} (hs : s.step cfg action = some t) :
    t.inserted = s.inserted ∪ {p | action = .merger ∧ p ∈ s.incoming} := by
  rcases step_cases hs with ⟨w, seen, lane, lane', rfl, hl, hlane, rfl⟩ |
    ⟨rfl, ⟨k, hk, rfl⟩ | ⟨hc, rfl⟩ | ⟨hp, rfl⟩⟩
  · rw [inserted_worker hl hlane]
    simp
  · simp only [incoming, hk, true_and]
    rcases @drain_cases s k with ⟨hnone, hd⟩ | ⟨lane, phase, got, hl, hd⟩
    · rw [hd, hnone]
      simp [inserted, setPhase]
    · rw [hd, hl]
      exact inserted_setLane hl rfl
  · simp [incoming, hc, inserted, check, setPhase]
  · simp [incoming, hp, inserted, publishAnchor]

theorem Run.fits (h : Run cfg (FitsSram cfg) s) :
    ∀ p ∈ s.inserted, cfg.poly.pressure p.sched ≤ cfg.poly.hw.sramCapBytes := by
  induction h with
  | start =>
    rw [start_inserted]
    nofun
  | step _ hm hs ih =>
    rw [step_inserted hs]
    rintro p (hp | ⟨ha, hp⟩)
    · exact ih p hp
    · exact hm ha p hp

/-- Every evaluation is on record, nothing is pruned before something was
inserted, and the frontier is empty only until then. -/
structure Tallied (s : Search) : Prop where
  evaluated : ∀ lane ∈ s.lanes, lane.worker.evaluated = lane.sent.length
  anchored : ∀ lane ∈ s.lanes,
    lane.worker.pruned ≠ 0 ∨ lane.worker.anchorWord ≠ ANCHOR_NONE → s.inserted.Nonempty
  published : ∀ word ∈ s.published, word ≠ ANCHOR_NONE → s.inserted.Nonempty
  cap : 0 < s.merger.frontier.cap
  points : s.inserted.Nonempty → s.merger.frontier.points ≠ []

theorem start_tallied : (start cfg).Tallied where
  evaluated := by
    simp only [start, List.mem_map]
    rintro _ ⟨w, _, rfl⟩
    rfl
  anchored := by
    simp only [start, List.mem_map]
    rintro _ ⟨w, _, rfl⟩ h
    simp [Lane.start, Worker.start] at h
  published := by
    intro word hw hne
    exact absurd (List.mem_singleton.mp hw) hne
  cap := by simp [start, ParetoFrontier.new]
  points := by
    rw [start_inserted]
    rintro ⟨_, hp⟩
    cases hp

theorem Tallied.worker {w seen m : Nat} (h : s.Tallied) (hl : s.lanes[w]? = some lane)
    (hs : lane.step cfg s.published[seen]? = some lane') :
    ({ s.setLane w lane' with done := m } : Search).Tallied := by
  have hinserted := @inserted_worker cfg s lane w seen m lane' hl hs
  have hmem := List.mem_of_getElem? hl
  have hlane : lane'.worker.evaluated = lane'.sent.length ∧
      (lane'.worker.pruned ≠ 0 ∨ lane'.worker.anchorWord ≠ ANCHOR_NONE → s.inserted.Nonempty) :=
    Lane.step_tally hs (h.evaluated lane hmem) (h.anchored lane hmem) fun x hx =>
      h.published x (List.mem_of_getElem? hx)
  refine ⟨fun x hx => ?_, fun x hx => ?_, hinserted ▸ h.published, h.cap, hinserted ▸ h.points⟩
  · rcases List.mem_or_eq_of_mem_set hx with hx | rfl
    · exact h.evaluated x hx
    · exact hlane.1
  · rw [hinserted]
    rcases List.mem_or_eq_of_mem_set hx with hx | rfl
    · exact h.anchored x hx
    · exact hlane.2

theorem Tallied.step {action : SearchAction} (h : s.Tallied) (hc : s.Collects cfg)
    (hs : s.step cfg action = some t) : t.Tallied := by
  have hmono : s.inserted ⊆ t.inserted := by
    rw [step_inserted hs]
    exact Set.subset_union_left
  rcases step_cases hs with ⟨w, seen, lane, lane', rfl, hl, hlane, rfl⟩ |
    ⟨rfl, ⟨k, _, rfl⟩ | ⟨_, rfl⟩ | ⟨_, rfl⟩⟩
  · exact h.worker hl hlane
  · rcases @drain_cases s k with ⟨_, hd⟩ | ⟨lane, phase, got, hl, hd⟩
    · rw [hd]
      exact ⟨h.evaluated, h.anchored, h.published, h.cap, h.points⟩
    · rw [hd] at hmono ⊢
      have hinserted : (s.setLane k lane.taken).inserted = s.inserted ∪ {p | p ∈ lane.take} :=
        inserted_setLane hl rfl
      have hmem := List.mem_of_getElem? hl
      refine ⟨fun x hx => ?_, fun x hx ha => ?_, fun word hw hne => ?_, ?_, fun hne => ?_⟩
      · rcases List.mem_or_eq_of_mem_set hx with hx | rfl
        · exact h.evaluated x hx
        · exact h.evaluated lane hmem
      · refine Set.Nonempty.mono hmono ?_
        rcases List.mem_or_eq_of_mem_set hx with hx | rfl
        · exact h.anchored x hx ha
        · exact h.anchored lane hmem ha
      · exact (h.published word hw hne).mono hmono
      · simpa [ParetoFrontier.foldl_insert_cap] using h.cap
      · refine ParetoFrontier.foldl_insert_ne_nil h.cap ?_
        obtain ⟨p, hp⟩ := hne
        rcases hinserted ▸ hp with hp | hp
        · exact .inl (h.points ⟨p, hp⟩)
        · exact .inr (List.ne_nil_of_mem hp)
  · exact ⟨h.evaluated, h.anchored, h.published, h.cap, h.points⟩
  · refine ⟨h.evaluated, h.anchored, fun word hw hne => ?_, h.cap, h.points⟩
    unfold publishAnchor at hw
    simp only at hw
    split at hw
    · next best hbest =>
      rcases List.mem_cons.mp hw with rfl | hw
      · exact ⟨best, hc.points best (ParetoFrontier.best_mem hbest)⟩
      · exact h.published word hw hne
    · exact h.published word hw hne

theorem Run.tallied (h : Run cfg meets s) : s.Tallied := by
  induction h with
  | start => exact start_tallied
  | step hrun _ hs ih => exact ih.step hrun.collects hs

/-- With an empty frontier and no record under way nothing was enumerated. -/
theorem Run.unenumerated (h : Run cfg meets s) (hend : s.ended = true)
    (hlate : s.NonePublishedLate) (hpoints : s.merger.frontier.points = []) :
    s.outcome.evaluated = 0 ∧ s.outcome.pruned = 0 := by
  have htallied := h.tallied
  have hnone : ¬ s.inserted.Nonempty := fun hne => htallied.points hne hpoints
  simp only [outcome, List.sum_eq_zero_iff_forall_eq_nat, List.mem_map, forall_exists_index,
    and_imp, forall_apply_eq_imp_iff₂]
  refine ⟨fun lane hl => ?_, fun lane hl => ?_⟩
  · rw [htallied.evaluated lane hl, List.length_eq_zero_iff]
    rw [← (h.flow.received_iff hend hl).mpr (hlate lane hl)]
    by_contra hne
    obtain ⟨p, hp⟩ := List.exists_mem_of_ne_nil _ hne
    exact hnone ⟨p, lane, hl, hp⟩
  · by_contra hne
    exact hnone (htallied.anchored lane hl (.inl hne))

end Search

-- ---------------------------------------------------------------------------
-- The verdict
-- ---------------------------------------------------------------------------

namespace Bridge

theorem buildClusters_error {winner : List PackedOpSched} {hw : HardwareModel} {e : SuperOptError}
    (h : buildClusters a poly winner hw = .error e) : e ≠ .noVerifiedCandidate := by
  refine @foldlM_error _ _ _ _ (· ≠ .noVerifiedCandidate) (fun clusters group e' hg => ?_) _ _ _ h
  unfold addGroup at hg
  split at hg
  · cases hg
  · refine @foldlM_error _ _ _ _ (· ≠ .noVerifiedCandidate) (fun clusters m e'' hm => ?_) _ _ _ hg
    cases hassign : clusters.assign _ m with
    | error _ =>
      rw [hassign] at hm
      cases hm
      nofun
    | ok _ =>
      rw [hassign] at hm
      cases hm

end Bridge

theorem verifyCandidates_isSome {candidates : List TopCandidate} (hne : candidates ≠ [])
    (h : ∀ cand ∈ candidates, verifyCandidate a poly cand.sched = .ok ()) :
    ∃ winner, verifyCandidates a poly candidates = some winner := by
  cases candidates with
  | nil => contradiction
  | cons cand rest =>
    refine ⟨cand, ?_⟩
    simp [verifyCandidates, h cand List.mem_cons_self, Except.toBool]

theorem ParetoFrontier.mem_of_mem_topK {f : ParetoFrontier} {p : FrontierPoint} {k : Nat}
    (h : p ∈ f.topK k) : p ∈ f.points :=
  List.mem_mergeSort.mp (List.mem_of_mem_take h)

theorem ParetoFrontier.topK_ne_nil {f : ParetoFrontier} {k : Nat} (hne : f.points ≠ [])
    (hk : 0 < k) : f.topK k ≠ [] := by
  refine List.ne_nil_of_length_pos ?_
  have hpos := List.length_pos_iff.mpr hne
  simp only [topK, List.length_take, List.length_mergeSort]
  omega

/-- A frontier of verified points yields no missing candidate. -/
theorem points_of_noVerified {outcome : SearchOutcome}
    (h : superoptimizeArena a outcome = .error .noVerifiedCandidate)
    (hall : ∀ p ∈ outcome.frontier.points, verifyCandidate a
      (truncatePolytope (extractPolytope a .reference)) p.sched = .ok ()) :
    outcome.frontier.points = [] := by
  by_contra hne
  unfold superoptimizeArena at h
  simp only at h
  split at h
  · cases h
  split at h
  · next hempty => exact hne (List.isEmpty_iff.mp hempty)
  have htop : (outcome.frontier.topK 10).map
      (fun p => (⟨p.sched, p.cost⟩ : TopCandidate)) ≠ [] := by
    simpa using ParetoFrontier.topK_ne_nil hne (by decide)
  have hverified : ∀ cand ∈ (outcome.frontier.topK 10).map
      (fun p => (⟨p.sched, p.cost⟩ : TopCandidate)), verifyCandidate a
        (truncatePolytope (extractPolytope a .reference)) cand.sched = .ok () := by
    simp only [List.mem_map]
    rintro _ ⟨p, hp, rfl⟩
    exact hall p (ParetoFrontier.mem_of_mem_topK hp)
  obtain ⟨winner, hwinner⟩ := verifyCandidates_isSome htop hverified
  rw [hwinner] at h
  simp only at h
  cases hb : Bridge.buildClusters a _ winner.sched .reference with
  | ok clusters =>
    rw [hb] at h
    cases h
  | error e =>
    rw [hb] at h
    cases h
    exact Bridge.buildClusters_error hb rfl

namespace Search

variable {s : Search} {n : Nat} {prune : Bool}

theorem Run.verified (h : Run (searchOf a n prune) (FitsSram (searchOf a n prune)) s) :
    ∀ p ∈ s.outcome.frontier.points,
      (searchOf a n prune).poly.checkFull p.sched = .ok () ∧
        verifyCandidate a (searchOf a n prune).poly p.sched = .ok () := by
  intro p hp
  have hx := searchOf_extracted a n prune
  have hp := h.collects.points p hp
  have hfits := h.fits p hp
  obtain ⟨full, hc, hne, rfl⟩ := h.collects.inserted_offered h.flow hp
  exact ⟨(hc.checkFull_iff hx hne).mpr hfits, (hc.verify_iff hx hne).mpr hfits⟩

/-- While the merger takes nothing that overflows SRAM, all of the frontier
passes the gate; and if no record comes late, the gate comes away with nothing
only where nothing was enumerated. -/
theorem frontier_verified (h : Run (searchOf a n prune) (FitsSram (searchOf a n prune)) s) :
    (∀ p ∈ s.outcome.frontier.points,
      (searchOf a n prune).poly.checkFull p.sched = .ok () ∧
        verifyCandidate a (searchOf a n prune).poly p.sched = .ok ()) ∧
    (s.ended = true → s.NonePublishedLate →
      superoptimizeArena a s.outcome = .error .noVerifiedCandidate →
      s.outcome.evaluated = 0 ∧ s.outcome.pruned = 0) := by
  refine ⟨h.verified, fun hend hlate herr => ?_⟩
  exact h.unenumerated hend hlate
    (points_of_noVerified herr fun p hp => (h.verified p hp).2)

theorem frontier_verified_fourSum : ∃ s,
    Run (searchOf fourSum 1 true) (FitsSram (searchOf fourSum 1 true)) s ∧
      s.outcome.frontier.points ≠ [] ∧ ∀ p ∈ s.outcome.frontier.points,
        (searchOf fourSum 1 true).poly.checkFull p.sched = .ok () ∧
          verifyCandidate fourSum (searchOf fourSum 1 true).poly p.sched = .ok () := by
  obtain ⟨s, hs, _, hp⟩ := @exists_conclusive (searchOf fourSum 1 true)
    (FitsSram (searchOf fourSum 1 true)) _ (workerSteps 0 5 ++ mergerSteps 8)
    (·.outcome.frontier.points ≠ []) _ rfl
  exact ⟨s, hs, hp, (frontier_verified hs).1⟩

/-- Just below the SRAM capacity in doubles, and odd. -/
def longRow : Shape := ⟨[8191], by decide, by simp, by simp⟩

/-- Two tensors that fit in SRAM one at a time. -/
def twoNegations : IrArena := .built do
  let a := IrArena.withCapacity 16 4
  let ty : Ty := .tensor ⟨.f64, longRow, .rowMajor⟩
  let (x, a) ← a.insertNode a.rootRegion (.new (.param 0) a.rootRegion [] ty)
  let (y, a) ← a.insertNode a.rootRegion (.new (.param 1) a.rootRegion [] ty)
  let xval ← a.valueOf x 0
  let (_, a) ← a.insertNode a.rootRegion (.new (.unary .neg) a.rootRegion [xval] ty)
  let yval ← a.valueOf y 0
  let (_, a) ← a.insertNode a.rootRegion (.new (.unary .neg) a.rootRegion [yval] ty)
  return a

theorem twoNegations_not_verified : verify twoNegations = .ok () ∧ ∃ s,
    Reachable (searchOf twoNegations 1 true) s ∧ s.Conclusive ∧
      ∃ p ∈ s.outcome.frontier.points,
        (searchOf twoNegations 1 true).poly.checkFull p.sched ≠ .ok () ∧
          verifyCandidate twoNegations (searchOf twoNegations 1 true).poly p.sched ≠ .ok () := by
  obtain ⟨s, hs, hc, p, hp, hover⟩ := @exists_conclusive (searchOf twoNegations 1 true)
    (fun _ _ => True) _ (workerSteps 0 9 ++ mergerSteps 8)
    (fun s => ∃ p ∈ s.outcome.frontier.points,
      (searchOf twoNegations 1 true).poly.checkFull p.sched ≠ .ok () ∧
        verifyCandidate twoNegations (searchOf twoNegations 1 true).poly p.sched ≠ .ok ()) _
    rfl
  exact ⟨by decide, s, hs, hc, p, hp, hover⟩

end Search

end Sxla
