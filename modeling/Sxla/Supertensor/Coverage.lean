import Sxla.Supertensor.Candidates
import Sxla.Supertensor.Merge

/-!
# The search covers its candidates

A worker that stays within its budgets drops a candidate only where an
inserted point dominates it. So a run that inserts everything ends with the
skyline of all candidates, whatever the workers did and whenever they
looked at the anchor.
-/

namespace Sxla

open SchedulePolytope

-- ---------------------------------------------------------------------------
-- One worker
-- ---------------------------------------------------------------------------

namespace Worker

variable {cfg : SearchConfig} {wk : Worker} {ops full : List PackedOpSched} {word : Nat}
  {inserted : Set FrontierPoint}

/-- The prefixes the worker still has to look at. -/
def openPrefixes (wk : Worker) : List (List PackedOpSched) :=
  match wk.phase with
  | .polling ops => ops :: wk.stack
  | _ => wk.stack

/-- An anchor word is the cost of an inserted point. -/
def Justified (inserted : Set FrontierPoint) (word : Nat) : Prop :=
  word = ANCHOR_NONE ∨ ∃ q ∈ inserted, unpackAnchor word = q.cost

theorem Justified.mono {inserted' : Set FrontierPoint} (h : Justified inserted word)
    (hsub : inserted ⊆ inserted') : Justified inserted' word :=
  h.imp_right fun ⟨q, hq, hw⟩ => ⟨q, hsub hq, hw⟩

/-- What becomes of a candidate in one pass through the loop. -/
def Accounts (cfg : SearchConfig) (inserted : Set FrontierPoint) (full : List PackedOpSched)
    (r : Worker × Option FrontierPoint) : Prop :=
  r.1.budgetExhausted = true ∨ (∃ ops ∈ r.1.openPrefixes, ops <+: full) ∨
    r.2 = some (pointOf cfg.poly full) ∨
    ∃ q ∈ inserted, dominates q.cost (evaluate full cfg.poly) = true

theorem work_phase : (wk.work cfg ops).1.phase = .looping ∨
    (wk.work cfg ops).1.phase = .flushing ∧ (wk.work cfg ops).1.budgetExhausted = true := by
  unfold work
  split
  · split
    · exact .inr ⟨rfl, rfl⟩
    · simp only
      split <;> exact .inl rfl
  · exact .inl rfl

theorem openPrefixes_work : (wk.work cfg ops).1.openPrefixes = (wk.work cfg ops).1.stack := by
  unfold openPrefixes
  rcases @work_phase cfg wk ops with h | ⟨h, _⟩ <;> rw [h]

@[simp] theorem work_anchorWord : (wk.work cfg ops).1.anchorWord = wk.anchorWord := by
  unfold work
  split
  · split
    · rfl
    · simp only
      split <;> rfl
  · rfl

theorem stack_subset_work : ∀ o ∈ wk.stack, o ∈ (wk.work cfg ops).1.stack := by
  intro o ho
  unfold work
  split
  · split
    · exact ho
    · simp only
      split <;> exact ho
  · simp [ho]

/-- The popped prefix's completions are sent, kept open or dominated. -/
theorem work_accounts {a : IrArena} (hx : cfg.poly.Extracted a) (hc : Candidate cfg.poly full)
    (hpre : ops <+: full) (hj : cfg.enablePrune = true → Justified inserted wk.anchorWord) :
    Accounts cfg inserted full (wk.work cfg ops) := by
  have hdom : ∀ {bound : CostPoint}, cfg.enablePrune = true → wk.anchorWord ≠ ANCHOR_NONE →
      dominates (unpackAnchor wk.anchorWord) bound = true →
      ∃ q ∈ inserted, dominates q.cost bound = true := by
    intro bound hp hne hd
    obtain hnone | ⟨q, hq, hw⟩ := hj hp
    · exact absurd hnone hne
    · exact ⟨q, hq, hw ▸ hd⟩
  unfold Accounts
  rw [openPrefixes_work]
  by_cases hlen : ops.length = cfg.poly.opCount
  · have heq : ops = full := hpre.eq_of_length (hlen.trans hc.length.symm)
    subst heq
    unfold work
    rw [if_pos hlen]
    split
    · exact .inl rfl
    · simp only
      split
      · next hanch =>
        simp only [anchored, Bool.and_eq_true, bne_iff_ne] at hanch
        exact .inr (.inr (.inr (hdom hanch.1.1 hanch.1.2 hanch.2)))
      · exact .inr (.inr (.inl rfl))
  · unfold work
    rw [if_neg hlen]
    have hlt : ops.length < full.length :=
      lt_of_le_of_ne hpre.length_le fun he => hlen (he.trans hc.length)
    have hnext : ops ++ [full[ops.length]] = full.take (ops.length + 1) := by
      rw [List.take_succ_eq_append_getElem hlt, ← List.prefix_iff_eq_take.mp hpre]
    have hle : ops.length + 1 ≤ cfg.poly.opCount := hc.length ▸ hlt
    by_cases hprune : (cfg.enablePrune && prefixPrune (ops ++ [full[ops.length]]) (ops.length + 1)
        wk.anchorWord cfg.poly) = true
    · simp only [prefixPrune, Bool.and_eq_true, bne_iff_ne, hnext] at hprune
      obtain ⟨hp, hne, hd⟩ := hprune
      obtain ⟨q, hq, hqd⟩ := hdom hp hne hd
      exact .inr (.inr (.inr ⟨q, hq, dominates_of_prefixBound hx hc hle hqd⟩))
    · refine .inr (.inl ⟨ops ++ [full[ops.length]], ?_, hnext ▸ List.take_prefix ..⟩)
      simp only [List.mem_append, List.mem_reverse, children, List.mem_filter, List.mem_map]
      refine .inl ⟨⟨_, hc.drawn _ _ (List.getElem?_eq_getElem hlt), rfl⟩, ?_⟩
      rw [Bool.and_eq_true, Bool.not_eq_true']
      refine ⟨?_, by simpa using hprune⟩
      rw [hnext]
      exact hc.checked _ (by omega) hlt

/-- Candidates with an open prefix stay accounted for. -/
theorem pop_accounts {a : IrArena} (hx : cfg.poly.Extracted a) (hc : Candidate cfg.poly full)
    (hp : wk.phase = .looping) (hopen : ∃ o ∈ wk.openPrefixes, o <+: full)
    (hj : cfg.enablePrune = true → Justified inserted wk.anchorWord) :
    Accounts cfg inserted full (wk.pop cfg) := by
  obtain ⟨o, ho, hpre⟩ := hopen
  simp only [Worker.openPrefixes, hp] at ho
  unfold pop
  split
  · next hstack =>
    rw [hstack] at ho
    cases ho
  · next ops stack hstack =>
    rw [hstack] at ho
    simp only
    split
    · exact .inl rfl
    · split
      · exact .inr (.inl ⟨o, ho, hpre⟩)
      · rcases List.mem_cons.mp ho with rfl | ho
        · exact work_accounts hx hc hpre hj
        · refine .inr (.inl ⟨o, ?_, hpre⟩)
          rw [openPrefixes_work]
          exact stack_subset_work o ho

theorem poll_accounts {a : IrArena} (hx : cfg.poly.Extracted a) (hc : Candidate cfg.poly full)
    (hp : wk.phase = .polling ops) (hopen : ∃ o ∈ wk.openPrefixes, o <+: full)
    (hj : cfg.enablePrune = true → Justified inserted word) :
    Accounts cfg inserted full (wk.poll cfg ops word) := by
  obtain ⟨o, ho, hpre⟩ := hopen
  simp only [Worker.openPrefixes, hp] at ho
  rcases List.mem_cons.mp ho with rfl | ho
  · exact work_accounts hx hc hpre hj
  · refine .inr (.inl ⟨o, ?_, hpre⟩)
    unfold poll
    rw [openPrefixes_work]
    exact @stack_subset_work cfg { wk with anchorWord := word } ops o ho

-- ---------------------------------------------------------------------------
-- Soundness
-- ---------------------------------------------------------------------------

/-- What the worker holds and sends belongs to the polytope. -/
structure Sound (cfg : SearchConfig) (wk : Worker) : Prop where
  feasible : ∀ ops ∈ wk.openPrefixes, Feasible cfg.poly ops ∧ ops ≠ []
  empty : wk.budgetExhausted = false → ¬ wk.Busy ∨ wk.phase = .flushing → wk.stack = []

theorem work_sound (hs : ∀ o ∈ ops :: wk.stack, Feasible cfg.poly o ∧ o ≠ []) :
    (wk.work cfg ops).1.Sound cfg ∧ ∀ p, (wk.work cfg ops).2 = some p →
      ∃ o, Candidate cfg.poly o ∧ o ≠ [] ∧ p = pointOf cfg.poly o := by
  obtain ⟨hops, hstack⟩ := List.forall_mem_cons.mp hs
  refine ⟨⟨?_, ?_⟩, ?_⟩
  · rw [openPrefixes_work]
    unfold work
    split
    · split
      · exact hstack
      · simp only
        split <;> exact hstack
    · intro o ho
      simp only [List.mem_append, List.mem_reverse, children, List.mem_filter, List.mem_map,
        Bool.and_eq_true] at ho
      rcases ho with ⟨⟨x, hx, rfl⟩, hc, _⟩ | ho
      · exact ⟨hops.1.append hx hc, by simp⟩
      · exact hstack o ho
  · intro hb hphase
    obtain hp | ⟨_, hbudget⟩ := @work_phase cfg wk ops
    · rcases hphase with hphase | hphase
      · exact absurd work_busy hphase
      · rw [hp] at hphase
        cases hphase
    · rw [hb] at hbudget
      cases hbudget
  · intro p hp
    unfold work at hp
    split at hp
    · next hlen =>
      split at hp
      · cases hp
      · simp only at hp
        split at hp
        · cases hp
        · cases hp
          exact ⟨ops, ⟨hops.1, hlen⟩, hops.2, rfl⟩
    · cases hp

theorem Sound.pop (h : wk.Sound cfg) (hp : wk.phase = .looping) :
    (wk.pop cfg).1.Sound cfg ∧ ∀ p, (wk.pop cfg).2 = some p →
      ∃ o, Candidate cfg.poly o ∧ o ≠ [] ∧ p = pointOf cfg.poly o := by
  have hfeasible := h.feasible
  simp only [openPrefixes, hp] at hfeasible
  unfold Worker.pop
  split
  · next hstack =>
    exact ⟨⟨by simp [openPrefixes, hstack], fun _ _ => hstack⟩, nofun⟩
  · next ops stack hstack =>
    rw [hstack] at hfeasible
    simp only
    split
    · exact ⟨⟨(List.forall_mem_cons.mp hfeasible).2, nofun⟩, nofun⟩
    · split
      · refine ⟨⟨hfeasible, fun _ hphase => ?_⟩, nofun⟩
        simp [Busy] at hphase
      · exact work_sound hfeasible

theorem Sound.poll (h : wk.Sound cfg) (hp : wk.phase = .polling ops) :
    (wk.poll cfg ops word).1.Sound cfg ∧ ∀ p, (wk.poll cfg ops word).2 = some p →
      ∃ o, Candidate cfg.poly o ∧ o ≠ [] ∧ p = pointOf cfg.poly o := by
  have hfeasible := h.feasible
  simp only [openPrefixes, hp] at hfeasible
  exact work_sound hfeasible

theorem start_sound (w : Nat) : (start cfg w).Sound cfg where
  feasible := by
    intro ops ho
    simp only [openPrefixes, start, SearchConfig.slice, List.mem_reverse, List.mem_filter,
      List.mem_map, Prod.exists] at ho
    obtain ⟨⟨s, ⟨_, ci, ⟨hmem, _⟩, rfl⟩, rfl⟩, hc⟩ := ho
    have hnil : Feasible cfg.poly [] := ⟨by simp, fun d hd hle => absurd hd (by simpa using hle)⟩
    have hdraw := List.mem_of_getElem? (List.mem_zipIdx_iff_getElem?.mp hmem)
    exact ⟨hnil.append hdraw hc, by simp⟩
  empty := by
    intro _ hphase
    simp [start, Busy] at hphase

/-- Every candidate begins on the stack of the worker its first op falls to. -/
theorem start_covers (hc : Candidate cfg.poly full) {s : PackedOpSched} {ci : Nat}
    (hs : full[0]? = some s) (hci : cfg.domain0[ci]? = some s) :
    ∃ ops ∈ (start cfg (ci % cfg.nWorkers)).openPrefixes, ops <+: full := by
  obtain ⟨hpos, hs⟩ := List.getElem?_eq_some_iff.mp hs
  have htake : [s] = full.take 1 := by
    rw [List.take_one, List.head?_eq_getElem?, List.getElem?_eq_getElem hpos, hs]
    rfl
  refine ⟨[s], ?_, htake ▸ List.take_prefix ..⟩
  simp only [openPrefixes, start, SearchConfig.slice, List.mem_reverse, List.mem_filter,
    List.mem_map, Prod.exists]
  refine ⟨⟨s, ⟨s, ci, ⟨List.mem_zipIdx_iff_getElem?.mpr hci, by simp⟩, rfl⟩, rfl⟩, ?_⟩
  rw [htake]
  exact hc.checked 1 Nat.one_pos hpos

theorem work_budget (h : (wk.work cfg ops).1.budgetExhausted = false) :
    wk.budgetExhausted = false := by
  unfold work at h
  split at h
  · split at h
    · cases h
    · simp only at h
      split at h <;> exact h
  · exact h

theorem pop_budget (h : (wk.pop cfg).1.budgetExhausted = false) : wk.budgetExhausted = false := by
  unfold pop at h
  split at h
  · exact h
  · simp only at h
    split at h
    · cases h
    · split at h
      · exact h
      · exact @work_budget cfg { wk with stack := _, expansions := wk.expansions + 1 } _ h

theorem pop_anchorWord : (wk.pop cfg).1.anchorWord = wk.anchorWord := by
  unfold pop
  split
  · rfl
  · simp only
    split
    · rfl
    · split
      · rfl
      · exact work_anchorWord

end Worker

-- ---------------------------------------------------------------------------
-- One lane
-- ---------------------------------------------------------------------------

namespace Lane

open Worker

variable {cfg : SearchConfig} {lane lane' : Lane} {w : Nat} {word : Option Nat}
  {inserted inserted' : Set FrontierPoint} {full : List PackedOpSched}

/-- What the worker holds and has sent belongs to the polytope. -/
structure Draws (cfg : SearchConfig) (lane : Lane) : Prop where
  sound : lane.worker.Sound cfg
  sent : ∀ p ∈ lane.sent, ∃ full, Candidate cfg.poly full ∧ full ≠ [] ∧ p = pointOf cfg.poly full

theorem start_draws : (start cfg w).Draws cfg := ⟨start_sound w, by simp [start]⟩

theorem publish_sent : lane.publish.sent = lane.sent := by
  unfold publish
  split <;> rfl

theorem publish_received : lane.publish.received = lane.received := by
  unfold publish
  split <;> rfl

/-- What a pass through the loop leaves in the lane. -/
theorem put_fields {r : Worker × Option FrontierPoint} (h : lane.put r = some lane') :
    lane'.worker = r.1 ∧ lane'.sent = lane.sent ++ r.2.toList ∧
      lane'.received = lane.received := by
  rcases put_cases h with ⟨hr, rfl⟩ | ⟨p, hr, rfl⟩
  · simp [hr]
  · unfold send
    simp only [hr, Option.toList_some]
    split
    · exact ⟨publish_worker, publish_sent, publish_received⟩
    · exact ⟨rfl, rfl, rfl⟩

theorem step_received (hs : lane.step cfg word = some lane') :
    lane'.received = lane.received := by
  rcases step_cases hs with ⟨r, hput, _⟩ | ⟨_, rfl⟩ | ⟨_, rfl⟩
  · exact (put_fields hput).2.2
  · exact publish_received
  · rfl

theorem openPrefixes_flush (hp : lane.worker.phase = .flushing) :
    (lane.publish.enter .marking).worker.openPrefixes = lane.worker.openPrefixes := by
  simp [enter, openPrefixes, hp]

theorem openPrefixes_mark (hp : lane.worker.phase = .marking) :
    (lane.enter .ended).worker.openPrefixes = lane.worker.openPrefixes := by
  simp [enter, openPrefixes, hp]

theorem Draws.put {r : Worker × Option FrontierPoint} (h : lane.Draws cfg)
    (hput : lane.put r = some lane')
    (hsound : r.1.Sound cfg ∧ ∀ p, r.2 = some p →
      ∃ full, Candidate cfg.poly full ∧ full ≠ [] ∧ p = pointOf cfg.poly full) :
    lane'.Draws cfg := by
  obtain ⟨hworker, hsent, _⟩ := put_fields hput
  refine ⟨hworker ▸ hsound.1, fun p hp => ?_⟩
  rw [hsent, List.mem_append, Option.mem_toList] at hp
  exact hp.elim (h.sent p) (hsound.2 p)

theorem Draws.step (h : lane.Draws cfg) (hs : lane.step cfg word = some lane') :
    lane'.Draws cfg := by
  rcases step_cases hs with ⟨r, hput, _, ⟨hp, rfl⟩ | ⟨ops, x, hp, rfl, rfl⟩⟩ | ⟨hp, rfl⟩ | ⟨hp, rfl⟩
  · exact h.put hput (h.sound.pop hp)
  · exact h.put hput (h.sound.poll hp)
  · refine ⟨⟨?_, fun hb _ => ?_⟩, ?_⟩
    · exact openPrefixes_flush hp ▸ h.sound.feasible
    · simpa [enter] using h.sound.empty (by simpa [enter] using hb) (.inr hp)
    · simpa [enter, publish_sent] using h.sent
  · refine ⟨⟨?_, fun hb _ => ?_⟩, h.sent⟩
    · exact openPrefixes_mark hp ▸ h.sound.feasible
    · exact h.sound.empty hb (.inl fun hbusy => hbusy.1 hp)

/-- Open, sent or dominated. -/
def Settles (cfg : SearchConfig) (inserted : Set FrontierPoint) (lane : Lane)
    (full : List PackedOpSched) : Prop :=
  (∃ ops ∈ lane.worker.openPrefixes, ops <+: full) ∨ pointOf cfg.poly full ∈ lane.sent ∨
    ∃ q ∈ inserted, dominates q.cost (evaluate full cfg.poly) = true

/-- The candidates that start in the share of worker `w`. -/
def Share (cfg : SearchConfig) (w : Nat) (full : List PackedOpSched) : Prop :=
  Candidate cfg.poly full ∧
    ∃ s ci, full[0]? = some s ∧ cfg.domain0[ci]? = some s ∧ ci % cfg.nWorkers = w

structure Covers (cfg : SearchConfig) (inserted : Set FrontierPoint) (w : Nat) (lane : Lane) :
    Prop where
  anchor : cfg.enablePrune = true → Justified inserted lane.worker.anchorWord
  settles : lane.worker.budgetExhausted = false →
    ∀ full, Share cfg w full → lane.Settles cfg inserted full

theorem start_covers : (start cfg w).Covers cfg inserted w where
  anchor _ := .inl rfl
  settles := by
    rintro _ full ⟨hc, s, ci, hs, hci, rfl⟩
    exact .inl (Worker.start_covers hc hs hci)

theorem Covers.mono (h : lane.Covers cfg inserted w) (hsub : inserted ⊆ inserted') :
    lane.Covers cfg inserted' w where
  anchor hp := (h.anchor hp).mono hsub
  settles hb full hc := by
    rcases h.settles hb full hc with hopen | hsent | ⟨q, hq, hd⟩
    · exact .inl hopen
    · exact .inr (.inl hsent)
    · exact .inr (.inr ⟨q, hsub hq, hd⟩)

theorem Covers.put {r : Worker × Option FrontierPoint} (h : lane.Covers cfg inserted w)
    (hput : lane.put r = some lane')
    (hanchor : cfg.enablePrune = true → Justified inserted r.1.anchorWord)
    (hbudget : r.1.budgetExhausted = false → lane.worker.budgetExhausted = false)
    (haccounts : ∀ full, Candidate cfg.poly full → (∃ o ∈ lane.worker.openPrefixes, o <+: full) →
      Accounts cfg inserted full r) : lane'.Covers cfg inserted w := by
  obtain ⟨hworker, hsent, _⟩ := put_fields hput
  constructor
  · exact hworker ▸ hanchor
  · intro hb full hc
    rw [hworker] at hb
    unfold Settles
    rw [hworker, hsent]
    rcases h.settles (hbudget hb) full hc with hopen | hold | hdom
    · rcases haccounts full hc.1 hopen with hspent | hstill | hnew | hdom
      · rw [hb] at hspent
        cases hspent
      · exact .inl hstill
      · exact .inr (.inl (by simp [hnew]))
      · exact .inr (.inr hdom)
    · exact .inr (.inl (List.mem_append_left _ hold))
    · exact .inr (.inr hdom)

theorem Covers.step {a : IrArena} (hx : cfg.poly.Extracted a) (h : lane.Covers cfg inserted w)
    (hword : cfg.enablePrune = true → ∀ x, word = some x → Justified inserted x)
    (hs : lane.step cfg word = some lane') : lane'.Covers cfg inserted w := by
  rcases step_cases hs with ⟨r, hput, _, ⟨hp, rfl⟩ | ⟨ops, x, hp, rfl, rfl⟩⟩ | ⟨hp, rfl⟩ | ⟨hp, rfl⟩
  · refine h.put hput (fun he => ?_) pop_budget fun full hc hopen =>
      pop_accounts hx hc hp hopen h.anchor
    rw [pop_anchorWord]
    exact h.anchor he
  · refine h.put hput (fun he => ?_) ?_ fun full hc hopen =>
      poll_accounts hx hc hp hopen fun he => hword he x rfl
    · unfold poll
      rw [work_anchorWord]
      exact hword he x rfl
    · exact @work_budget cfg { lane.worker with anchorWord := x } ops
  · refine ⟨?_, fun hb full hc => ?_⟩
    · simpa [enter] using h.anchor
    · have hold := h.settles (by simpa [enter] using hb) full hc
      unfold Settles at hold ⊢
      rw [openPrefixes_flush hp]
      simpa [enter, publish_sent] using hold
  · refine ⟨h.anchor, fun hb full hc => ?_⟩
    have hold := h.settles hb full hc
    unfold Settles at hold ⊢
    rwa [openPrefixes_mark hp]

end Lane

-- ---------------------------------------------------------------------------
-- The whole search
-- ---------------------------------------------------------------------------

namespace ParetoFrontier

variable {f : ParetoFrontier} {l : List FrontierPoint} {S : Set FrontierPoint} {p : FrontierPoint}

theorem foldl_insert_evicted (h : (l.foldl insert f).evicted = false) : f.evicted = false := by
  induction l generalizing f with
  | nil => exact h
  | cons q l ih =>
    by_contra hf
    rw [Bool.not_eq_false] at hf
    have hq := ih h
    rw [insert_evicted hf] at hq
    cases hq

theorem foldl_insert_cap : (l.foldl insert f).cap = f.cap := by
  induction l generalizing f with
  | nil => rfl
  | cons q l ih => simpa using @ih (f.insert q)

theorem foldl_insert_isSkyline (h : Skyline.IsSkyline Before S f.points)
    (hfree : (l.foldl insert f).evicted = false) :
    Skyline.IsSkyline Before (S ∪ {p | p ∈ l}) (l.foldl insert f).points := by
  induction l generalizing f S with
  | nil => simpa using h
  | cons q l ih =>
    have hq := foldl_insert_evicted (f := f.insert q) hfree
    have hset : S ∪ {p | p ∈ q :: l} = Insert.insert q S ∪ {p | p ∈ l} := by
      ext p
      simp only [Set.mem_union, Set.mem_ofPred_eq, List.mem_cons, Set.mem_insert_iff]
      tauto
    rw [hset]
    exact ih (insert_isSkyline h hq) hfree

theorem mem_foldl_insert (h : p ∈ (l.foldl insert f).points) : p ∈ f.points ∨ p ∈ l := by
  induction l generalizing f with
  | nil => exact .inl h
  | cons q l ih =>
    rcases ih h with hp | hp
    · rcases mem_insert hp with hp | rfl
      · exact .inl hp
      · exact .inr List.mem_cons_self
    · exact .inr (List.mem_cons_of_mem _ hp)

end ParetoFrontier

namespace Search

variable {cfg : SearchConfig} {s t : Search} {lane : Lane} {a : IrArena}

/-- Every record the merger has inserted. -/
def inserted (s : Search) : Set FrontierPoint := {p | ∃ lane ∈ s.lanes, p ∈ lane.received}

/-- The anchor is not published clipped. -/
def AnchorFits (cfg : SearchConfig) (s : Search) (action : SearchAction) : Prop :=
  cfg.enablePrune = true → action = .merger → s.merger.phase = .publishing →
    ∀ best ∈ s.merger.frontier.best, FitsAnchor best.cost

instance (cfg : SearchConfig) : DecidableRel (AnchorFits cfg) := fun s action => by
  unfold AnchorFits
  infer_instance

/-- What any run collects: candidates only, and their skyline until the
frontier's capacity trips. -/
structure Collects (cfg : SearchConfig) (s : Search) : Prop where
  lanes : ∀ lane ∈ s.lanes, lane.Draws cfg
  points : ∀ p ∈ s.merger.frontier.points, p ∈ s.inserted
  skyline : s.merger.frontier.evicted = false →
    Skyline.IsSkyline ParetoFrontier.Before s.inserted s.merger.frontier.points

structure Coverage (cfg : SearchConfig) (s : Search) : Prop where
  lanes : ∀ w (lane : Lane), s.lanes[w]? = some lane → lane.Covers cfg s.inserted w
  published : cfg.enablePrune = true → ∀ word ∈ s.published, Worker.Justified s.inserted word

theorem start_inserted : (start cfg).inserted = ∅ := by
  ext p
  simp [inserted, start, Lane.start]

theorem start_collects : (start cfg).Collects cfg where
  lanes := by
    simp only [start, List.mem_map]
    rintro _ ⟨w, _, rfl⟩
    exact Lane.start_draws
  points := by simp [start, ParetoFrontier.new]
  skyline _ := by
    rw [start_inserted]
    exact Skyline.isSkyline_nil

theorem start_coverage : (start cfg).Coverage cfg where
  lanes := by
    intro w lane hl
    simp only [start, List.getElem?_map, Option.map_eq_some_iff] at hl
    obtain ⟨v, hv, rfl⟩ := hl
    rw [List.getElem?_range (by simpa using (List.getElem?_eq_some_iff.mp hv).1)] at hv
    cases hv
    exact Lane.start_covers
  published := by
    simp [start, Worker.Justified]

/-- A lane that receives more adds what it received. -/
theorem inserted_setLane {w : Nat} {lane' : Lane} {l : List FrontierPoint}
    (hl : s.lanes[w]? = some lane) (hr : lane'.received = lane.received ++ l) :
    (s.setLane w lane').inserted = s.inserted ∪ {p | p ∈ l} := by
  obtain ⟨hw, hget⟩ := List.getElem?_eq_some_iff.mp hl
  ext p
  simp only [inserted, setLane, Set.mem_union, Set.mem_ofPred_eq]
  constructor
  · rintro ⟨x, hx, hp⟩
    rcases List.mem_or_eq_of_mem_set hx with hx | rfl
    · exact .inl ⟨x, hx, hp⟩
    · rw [hr, List.mem_append] at hp
      exact hp.imp_left fun hp => ⟨lane, List.mem_of_getElem? hl, hp⟩
  · have hnew : lane' ∈ s.lanes.set w lane' := List.mem_set hw lane'
    rintro (⟨x, hx, hp⟩ | hp)
    · obtain ⟨i, hi⟩ := List.getElem?_of_mem hx
      by_cases hiw : w = i
      · subst hiw
        rw [hl] at hi
        cases hi
        exact ⟨lane', hnew, hr ▸ List.mem_append_left _ hp⟩
      · refine ⟨x, List.mem_of_getElem? (i := i) ?_, hp⟩
        rw [List.getElem?_set_ne hiw, hi]
    · exact ⟨lane', hnew, hr ▸ List.mem_append_right _ hp⟩

/-- A worker's action inserts nothing. -/
theorem inserted_worker {w seen n : Nat} {lane' : Lane} (hl : s.lanes[w]? = some lane)
    (hs : lane.step cfg s.published[seen]? = some lane') :
    ({ s.setLane w lane' with done := n } : Search).inserted = s.inserted := by
  have hkept := @inserted_setLane s lane w lane' [] hl (by simp [Lane.step_received hs])
  simp only [List.not_mem_nil, Set.ofPred_false, Set.union_empty] at hkept
  exact hkept

/-- The merger's look at a channel inserts what it takes. -/
theorem drain_cases (k : Nat) :
    s.lanes[k]? = none ∧ s.drain k = s.setPhase .checking ∨
    ∃ lane phase got, s.lanes[k]? = some lane ∧
      s.drain k = { s.setLane k lane.taken with
        merger := ⟨lane.take.foldl .insert s.merger.frontier, got, phase⟩ } := by
  unfold Search.drain
  split
  · next hnone => exact .inl ⟨hnone, rfl⟩
  · next lane hl =>
    refine .inr ⟨lane, ?_⟩
    split
    · next hready =>
      refine ⟨.draining (k + 1), s.merger.got, hl, ?_⟩
      simp [Lane.take, hready, setPhase, setLane]
    · exact ⟨.draining k, s.merger.got + lane.take.length, hl, rfl⟩

theorem Collects.step {action : SearchAction} (h : s.Collects cfg)
    (hs : s.step cfg action = some t) : t.Collects cfg := by
  rcases step_cases hs with ⟨w, seen, lane, lane', rfl, hl, hlane, rfl⟩ |
    ⟨rfl, ⟨k, _, rfl⟩ | ⟨_, rfl⟩ | ⟨_, rfl⟩⟩
  · have hinserted := @inserted_worker cfg s lane w seen
      (s.done + if marks lane then 1 else 0) lane' hl hlane
    refine ⟨fun x hx => ?_, ?_, ?_⟩
    · rcases List.mem_or_eq_of_mem_set hx with hx | rfl
      · exact h.lanes x hx
      · exact (h.lanes lane (List.mem_of_getElem? hl)).step hlane
    · exact hinserted ▸ h.points
    · exact hinserted ▸ h.skyline
  · rcases @drain_cases s k with ⟨_, hd⟩ | ⟨lane, phase, got, hl, hd⟩
    · rw [hd]
      exact ⟨h.lanes, h.points, h.skyline⟩
    · rw [hd]
      have hinserted : (s.setLane k lane.taken).inserted = s.inserted ∪ {p | p ∈ lane.take} :=
        inserted_setLane hl rfl
      refine ⟨fun x hx => ?_, fun p hp => ?_, fun hfree => ?_⟩
      · rcases List.mem_or_eq_of_mem_set hx with hx | rfl
        · exact h.lanes x hx
        · have hold := h.lanes lane (List.mem_of_getElem? hl)
          exact ⟨hold.sound, hold.sent⟩
      · have hp := ParetoFrontier.mem_foldl_insert hp
        have hsplit : p ∈ s.inserted ∪ {p | p ∈ lane.take} := hp.imp_left (h.points p)
        exact hinserted ▸ hsplit
      · have hold := h.skyline (ParetoFrontier.foldl_insert_evicted hfree)
        have hnew := ParetoFrontier.foldl_insert_isSkyline hold hfree
        exact hinserted ▸ hnew
  · exact ⟨h.lanes, h.points, h.skyline⟩
  · exact ⟨h.lanes, h.points, h.skyline⟩

theorem Run.collects {meets : Search → SearchAction → Prop} (h : Run cfg meets s) :
    s.Collects cfg := by
  induction h with
  | start => exact start_collects
  | step _ _ hs ih => exact ih.step hs

theorem Coverage.worker {w seen n : Nat} {lane' : Lane} (hx : cfg.poly.Extracted a)
    (h : s.Coverage cfg) (hl : s.lanes[w]? = some lane)
    (hs : lane.step cfg s.published[seen]? = some lane') :
    ({ s.setLane w lane' with done := n } : Search).Coverage cfg := by
  have hinserted := @inserted_worker cfg s lane w seen n lane' hl hs
  constructor
  · intro i x hi
    rw [hinserted]
    simp only [setLane, List.getElem?_set] at hi
    split at hi
    · next hiw =>
      subst hiw
      split at hi
      · cases hi
        exact (h.lanes w lane hl).step hx
          (fun hp y hy => h.published hp y (List.mem_of_getElem? hy)) hs
      · cases hi
    · exact h.lanes i x hi
  · exact hinserted ▸ h.published

theorem Coverage.drain {k : Nat} (h : s.Coverage cfg) : (s.drain k).Coverage cfg := by
  rcases @drain_cases s k with ⟨_, hd⟩ | ⟨lane, phase, got, hl, hd⟩
  · rw [hd]
    exact ⟨h.lanes, h.published⟩
  · rw [hd]
    have hinserted : (s.setLane k lane.taken).inserted = s.inserted ∪ {p | p ∈ lane.take} :=
      inserted_setLane hl rfl
    have hsub : s.inserted ⊆ (s.setLane k lane.taken).inserted := by
      rw [hinserted]
      exact Set.subset_union_left
    refine ⟨fun i x hi => ?_, fun hp word hw => (h.published hp word hw).mono hsub⟩
    simp only [setLane, List.getElem?_set] at hi
    split at hi
    · next hik =>
      subst hik
      split at hi
      · cases hi
        have hmono := (h.lanes k lane hl).mono hsub
        exact ⟨hmono.anchor, hmono.settles⟩
      · cases hi
    · exact (h.lanes i x hi).mono hsub

theorem Coverage.publishAnchor (h : s.Coverage cfg) (hc : s.Collects cfg)
    (hp : s.merger.phase = .publishing) (hfit : AnchorFits cfg s .merger) :
    s.publishAnchor.Coverage cfg := by
  refine ⟨h.lanes, fun he word hw => ?_⟩
  unfold Search.publishAnchor at hw
  simp only at hw
  split at hw
  · next best hbest =>
    rcases List.mem_cons.mp hw with rfl | hw
    · have hcost := unpack_packAnchor_of_fits (hfit he rfl hp best hbest)
      exact .inr ⟨best, hc.points best (ParetoFrontier.best_mem hbest), hcost⟩
    · exact h.published he word hw
  · exact h.published he word hw

theorem Run.coverage {meets : Search → SearchAction → Prop} (hx : cfg.poly.Extracted a)
    (h : Run cfg meets s) (hm : ∀ u action, meets u action → AnchorFits cfg u action) :
    s.Coverage cfg := by
  induction h with
  | start => exact start_coverage
  | step hrun hfit hs ih =>
    rcases step_cases hs with ⟨w, seen, lane, lane', rfl, hl, hlane, rfl⟩ |
      ⟨rfl, ⟨k, _, rfl⟩ | ⟨_, rfl⟩ | ⟨hp, rfl⟩⟩
    · exact ih.worker hx hl hlane
    · exact ih.drain
    · exact ⟨ih.lanes, ih.published⟩
    · exact ih.publishAnchor hrun.collects hp (hm _ _ hfit)

-- ---------------------------------------------------------------------------
-- The end of a run
-- ---------------------------------------------------------------------------

/-- The points of all complete schedules of at least one op. -/
def offered (poly : SchedulePolytope) : Set FrontierPoint :=
  {p | ∃ full, Candidate poly full ∧ full ≠ [] ∧ p = pointOf poly full}

theorem Collects.inserted_offered (h : s.Collects cfg) (hflow : s.Flow cfg) :
    s.inserted ⊆ offered cfg.poly := by
  rintro p ⟨lane, hl, hp⟩
  refine (h.lanes lane hl).sent p ?_
  rw [← (hflow.lanes lane hl).kept]
  simp [hp]

theorem nWorkers_pos : 0 < cfg.nWorkers := by
  unfold SearchConfig.nWorkers
  omega

/-- Every candidate is inserted or dominated in the end. -/
theorem Coverage.covers (h : s.Coverage cfg) (hc : s.Collects cfg) (hflow : s.Flow cfg)
    (hend : s.ended = true) (hbudget : s.budgetExhausted = false) (hall : s.AllInserted) :
    ∀ p ∈ offered cfg.poly, ∃ q ∈ s.inserted, ParetoFrontier.Before q p ∨ q = p := by
  rintro p ⟨full, hcand, hne, rfl⟩
  have hpos := List.length_pos_iff.mpr hne
  have hhead : full[0]? = some full[0] := List.getElem?_eq_getElem hpos
  obtain ⟨ci, hci⟩ := List.getElem?_of_mem (hcand.drawn 0 _ hhead)
  have hw : ci % cfg.nWorkers < s.lanes.length := by
    rw [hflow.length]
    exact Nat.mod_lt ci nWorkers_pos
  have hlane := List.getElem?_eq_getElem hw
  have hmem := List.mem_of_getElem? hlane
  have hfresh : s.lanes[ci % cfg.nWorkers].worker.budgetExhausted = false := by
    simpa using List.any_eq_false.mp hbudget _ hmem
  have hphase := hflow.all_ended hend _ hmem
  have hstack := (hc.lanes _ hmem).sound.empty hfresh (.inl fun hbusy => hbusy.2 hphase)
  rcases (h.lanes _ _ hlane).settles hfresh full ⟨hcand, _, ci, hhead, hci, rfl⟩ with
    ⟨o, ho, _⟩ | hsent | ⟨q, hq, hd⟩
  · simp [Worker.openPrefixes, hphase, hstack] at ho
  · exact ⟨_, ⟨_, hmem, hall _ hmem ▸ hsent⟩, .inr rfl⟩
  · exact ⟨q, hq, .inl (.inl hd)⟩

/-- The merger has ended, no worker gave up, nothing was evicted and every
record sent was inserted. -/
def Conclusive (s : Search) : Prop :=
  s.ended = true ∧ s.outcome.budgetExhausted = false ∧ s.outcome.capEvicted = false ∧
    s.AllInserted

/-- The frontier of such a run is the skyline of all complete schedules. -/
theorem Run.mem_points {meets : Search → SearchAction → Prop} (hx : cfg.poly.Extracted a)
    (h : Run cfg meets s) (hm : ∀ u action, meets u action → AnchorFits cfg u action)
    (hc : s.Conclusive) (p : FrontierPoint) : p ∈ s.outcome.frontier.points ↔
      p ∈ offered cfg.poly ∧ ∀ q ∈ offered cfg.poly, ¬ ParetoFrontier.Before q p := by
  obtain ⟨hend, hbudget, hcap, hall⟩ := hc
  have hcovers := (h.coverage hx hm).covers h.collects h.flow hend hbudget hall
  exact (h.collects.skyline hcap).exact (h.collects.inserted_offered h.flow) hcovers p

end Search

end Sxla
