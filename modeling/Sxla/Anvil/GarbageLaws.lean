import Sxla.Anvil.Garbage

/-!
# No garbage is lost

Every retired box is in one place in every state of every run, and none is
destroyed twice. A `collect` that runs alone after the epoch has been advanced
once since the last retire, and advances it again, destroys all that is left.
-/

namespace Sxla

open Transition Linked

namespace Garbage

open Ebr (EBR_RETIRE_THRESHOLD wrappingAdd)

namespace Action

def isRetire : Action → Bool
  | .retire _ => true
  | _ => false

def isCollect : Action → Bool
  | .collect _ => true
  | _ => false

def isPin : Action → Bool
  | .pin .. => true
  | _ => false

end Action

namespace Collector

/-- The boxes of a thread that are not on the stack yet. -/
def unpushedOf (s : Collector) (view : View) : List Nat :=
  view.1.phase.unstamped ++ s.objectsAt view.1.phase.unpushed

/-- The boxes in the private list of a thread's `collect`. -/
def privateOf (s : Collector) (view : View) : List Nat :=
  s.objectsAt (view.2 ++ view.1.phase.kept)

/-- Each retired box is in one place: not yet pushed by a running
`retire_box`, on the stack, in the private list of one running `collect`, or
destroyed. -/
structure Accounted (s : Collector) (stack : List Nat) (views : List View) : Prop where
  threads : views.map (·.1) = s.threads
  linked : Chain s.nextOf 0 s.garbageHead stack
  walked : ∀ view ∈ views, Chain s.nextOf 0 view.1.phase.cursor view.2
  retiring : ∀ view ∈ views, view.1.phase.retiring = false → s.unpushedOf view = []
  collecting : ∀ view ∈ views, view.1.phase.collecting = false → s.privateOf view = []
  once : (views.flatMap s.unpushedOf ++ s.objectsAt stack ++ views.flatMap s.privateOf ++
    s.destroyed).Perm (List.range s.retired)

structure Kept (s : Collector) : Prop where
  accounted : ∃ stack views, s.Accounted stack views
  counted : (∀ thread ∈ s.threads, thread.phase.collecting = false) →
    s.freedCount = s.destroyed.length % 0x10000000000000000
  valid : s.fault = false

variable {s s' mid : Collector} {t : Nat} {thread new : Thread} {views : List View}
  {stack : List Nat} {phase : Phase} {E : Nat}

-- ---------------------------------------------------------------------------
-- One place for each box
-- ---------------------------------------------------------------------------

theorem unpushed_of_calm (h : phase.retiring = false) :
    phase.unstamped = [] ∧ phase.unpushed = [] := by
  cases phase <;> first | exact ⟨rfl, rfl⟩ | cases h

theorem kept_of_not_collecting (h : phase.collecting = false) :
    phase.kept = [] ∧ phase.cursor = 0 ∧ phase.freed = 0 := by
  cases phase <;> first | exact ⟨rfl, rfl, rfl⟩ | cases h

/-- What the threads hold, sorted by who holds it. -/
theorem objects_perm (s : Collector) (views : List View) :
    (views.flatMap s.unpushedOf ++ views.flatMap s.privateOf).Perm
      (views.flatMap (·.1.phase.unstamped) ++ s.objectsAt (views.flatMap View.nodes)) := by
  refine List.perm_iff_count.mpr fun o => ?_
  induction views with
  | nil => rfl
  | cons view views ih =>
    have hview : s.objectsAt view.nodes = s.objectsAt view.2 ++
        (s.objectsAt view.1.phase.unpushed ++ s.objectsAt view.1.phase.kept) := by
      rw [View.nodes, Phase.held, objectsAt_append, objectsAt_append]
    simp only [List.flatMap_cons, objectsAt_append, List.count_append, hview, unpushedOf,
      privateOf] at ih ⊢
    omega

theorem Owns.accounted (h : s.Owns stack views) : s.Accounted stack views := by
  refine ⟨h.threads, h.linked, h.walked, fun view _ hcalm => ?_, fun view hview hidle => ?_, ?_⟩
  · obtain ⟨hunstamped, hunpushed⟩ := unpushed_of_calm hcalm
    rw [unpushedOf, hunstamped, hunpushed]
    rfl
  · obtain ⟨hkept, hcursor, -⟩ := kept_of_not_collecting hidle
    have hwalked := h.walked view hview
    rw [hcursor] at hwalked
    rw [privateOf, hkept, hwalked.eq_nil]
    rfl
  · have hunstamped : s.threads.flatMap (·.phase.unstamped) =
        views.flatMap (·.1.phase.unstamped) := by
      rw [← h.threads, List.flatMap_map]
    have honce := h.once
    rw [hunstamped, owned, objectsAt_append] at honce
    refine List.perm_iff_count.mpr fun o => ?_
    have h₁ := List.perm_iff_count.mp (objects_perm s views) o
    have h₂ := List.perm_iff_count.mp honce o
    simp only [List.count_append] at h₁ h₂ ⊢
    omega

theorem Inv.kept (hs : s.Inv) : s.Kept := by
  refine ⟨?_, fun hidle => ?_, hs.fault⟩
  · obtain ⟨stack, views, h⟩ := hs.owns
    exact ⟨stack, views, h.accounted⟩
  · have hsum : (s.threads.map (·.phase.freed)).sum = 0 := by
      refine List.sum_eq_zero fun n hn => ?_
      obtain ⟨thread, ht, rfl⟩ := List.mem_map.mp hn
      exact (kept_of_not_collecting (hidle thread ht)).2.2
    have htally := hs.tally
    rw [hsum, Nat.add_zero, Nat.mod_eq_of_lt hs.freed_lt] at htally
    exact htally

-- ---------------------------------------------------------------------------
-- After the last retire
-- ---------------------------------------------------------------------------

/-- No box is being retired, and no node has a stamp past `E`. -/
structure Quiet (E : Nat) (s : Collector) : Prop where
  stamps : ∀ a cell, s.heap a = some cell → cell.epoch ≤ E
  calm : ∀ thread ∈ s.threads, thread.phase.retiring = false

theorem Quiet.update (hq : Quiet E s) (hthreads : s'.threads = s.threads.set t new)
    (hheap : ∀ a cell, s'.heap a = some cell → ∃ old, s.heap a = some old ∧
      cell.epoch = old.epoch)
    (hnew : new.phase.retiring = false) : Quiet E s' := by
  refine ⟨fun a cell hcell => ?_, fun other ho => ?_⟩
  · obtain ⟨old, hold, hepoch⟩ := hheap a cell hcell
    rw [hepoch]
    exact hq.stamps a old hold
  · rw [hthreads] at ho
    rcases mem_set_cases ho with rfl | ho
    · exact hnew
    · exact hq.calm other ho

theorem Quiet.enter (hq : Quiet E s) (hphase : phase.retiring = false) :
    Quiet E (s.enter t thread phase) :=
  hq.update rfl (fun _ cell hcell => ⟨cell, hcell, rfl⟩) hphase

theorem Quiet.push (hq : Quiet E s) {node head : Nat} {fails : Bool} {retry : Nat → Phase}
    {done : Phase} (hretry : ∀ h, (retry h).retiring = false) (hdone : done.retiring = false) :
    Quiet E (s.push t thread node head fails retry done) := by
  rw [Collector.push]
  split
  · exact hq.update rfl (fun _ cell hcell => ⟨cell, hcell, rfl⟩) rfl
  · next cell hcell =>
    have hwrite : ∀ a c, (s.write node (some { cell with next := head })).heap a = some c →
        ∃ old, s.heap a = some old ∧ c.epoch = old.epoch := fun _ _ => write_epoch hcell
    dsimp only
    split
    · exact hq.update rfl hwrite (hretry _)
    · exact hq.update rfl hwrite hdone

theorem Quiet.sweep (hq : Quiet E s) {now head freed : Nat} {keep : List Nat} :
    Quiet E (s.sweep t thread now head keep freed) := by
  rw [Collector.sweep]
  split
  · exact hq.enter rfl
  · split
    · exact hq.update rfl (fun _ cell hcell => ⟨cell, hcell, rfl⟩) rfl
    · split
      · refine hq.update rfl (fun a cell hcell => ?_) rfl
        change (if a = head then none else s.heap a) = some cell at hcell
        split at hcell
        · cases hcell
        · exact ⟨cell, hcell, rfl⟩
      · exact hq.enter rfl

theorem Quiet.access (hq : Quiet E s) (ht : s.threads[t]? = some thread) {fails : Bool}
    (hrun : s.access t thread fails = some s') : Quiet E s' := by
  have hcalm := hq.calm thread (List.mem_of_getElem? ht)
  have hsame : ∀ a cell, s.heap a = some cell → ∃ old, s.heap a = some old ∧
      cell.epoch = old.epoch := fun _ cell hcell => ⟨cell, hcell, rfl⟩
  rw [Collector.access] at hrun
  split at hrun
  · cases hrun
  · cases hrun
  · cases hrun
    exact hq.update rfl hsame rfl
  · next hphase =>
    rw [hphase] at hcalm
    cases hcalm
  · next hphase =>
    rw [hphase] at hcalm
    cases hcalm
  · next hphase =>
    rw [hphase] at hcalm
    cases hcalm
  · cases hrun
    exact hq.enter rfl
  · cases hrun
    rw [scan]
    split
    · exact hq.enter rfl
    · split
      · exact hq.enter rfl
      · exact hq.enter rfl
  · cases hrun
    rw [advance]
    split
    · exact hq.update rfl hsame rfl
    · exact hq.enter rfl
  · cases hrun
    exact hq.enter rfl
  · cases hrun
    exact hq.update rfl hsame rfl
  · cases hrun
    exact hq.sweep
  · cases hrun
    exact hq.enter rfl
  · cases hrun
    exact hq.enter rfl
  · cases hrun
    exact hq.push (fun _ => rfl) rfl
  · cases hrun
    refine hq.update rfl hsame ?_
    split <;> rfl
  · cases hrun
    exact hq.update rfl hsame rfl

theorem Quiet.step {a : Action} (hq : Quiet E s) (ha : a.isRetire = false)
    (h : s.step a = some s') : Quiet E s' := by
  cases a with
  | pin t slot =>
    obtain ⟨thread, ht, h⟩ := Option.bind_eq_some_iff.mp h
    split at h
    · cases h
      exact hq.enter rfl
    · cases h
  | dropGuard t slot =>
    obtain ⟨thread, ht, h⟩ := Option.bind_eq_some_iff.mp h
    split at h
    · cases h
      exact hq.update rfl (fun _ cell hcell => ⟨cell, hcell, rfl⟩)
        (hq.calm thread (List.mem_of_getElem? ht))
    · cases h
  | retire t => cases ha
  | stamp t address =>
    obtain ⟨thread, ht, h⟩ := Option.bind_eq_some_iff.mp h
    have hcalm := hq.calm thread (List.mem_of_getElem? ht)
    split at h
    · next hphase =>
      rw [hphase] at hcalm
      cases hcalm
    · cases h
  | collect t =>
    obtain ⟨thread, ht, h⟩ := Option.bind_eq_some_iff.mp h
    split at h
    · cases h
      exact hq.enter rfl
    · cases h
  | run t fails =>
    obtain ⟨thread, ht, h⟩ := Option.bind_eq_some_iff.mp h
    exact hq.access ht h

-- ---------------------------------------------------------------------------
-- A collect that runs alone
-- ---------------------------------------------------------------------------

/-- The epoch has passed every stamp by two, and has not wrapped. -/
def Passed (E : Nat) (s : Collector) : Prop :=
  E + 2 ≤ s.advances ∧ s.advances < 0x10000000000000000

/-- Where a lone `collect` stands once the epoch has passed: from its swap on
the stack stays empty, and it keeps no node. -/
def Stage (E : Nat) (s : Collector) : Phase → Prop
  | .loading | .scanning .. | .advancing _ | .reading => True
  | .swapping now => now = s.globalEpoch
  | .sweeping now _ keep _ =>
    now = s.globalEpoch ∧ (Passed E s → s.garbageHead = 0 ∧ keep = [])
  | .restoring keep _ => Passed E s → s.garbageHead = 0 ∧ keep = []
  | .restorePushing .. => ¬ Passed E s
  | _ => Passed E s → s.garbageHead = 0

/-- Thread `t` is the only one that may be collecting. -/
structure Closing (E t : Nat) (s : Collector) : Prop where
  alone : ∀ (r : Nat) (other : Thread), s.threads[r]? = some other → r ≠ t →
    other.phase.collecting = false
  stage : ∀ thread, s.threads[t]? = some thread → Stage E s thread.phase

variable {r : Nat} {a : Action}

/-- A step of the thread that collects. -/
theorem Closing.own (hc : Closing E t s) (hthreads : s'.threads = s.threads.set t new)
    (hstage : Stage E s' new.phase) : Closing E t s' := by
  refine ⟨fun r other ho hne => ?_, fun thread ht => ?_⟩
  · rw [hthreads] at ho
    rcases getElem?_set_cases ho with ⟨heq, -⟩ | ⟨-, ho⟩
    · exact absurd heq hne
    · exact hc.alone r other ho hne
  · rw [hthreads] at ht
    rcases getElem?_set_cases ht with ⟨-, rfl⟩ | ⟨hne, -⟩
    · exact hstage
    · exact absurd rfl hne

/-- A step of another thread, outside `collect`. -/
theorem Closing.other (hc : Closing E t s) (hne : r ≠ t)
    (hthreads : s'.threads = s.threads.set r new) (hhead : s'.garbageHead = s.garbageHead)
    (hepoch : s'.globalEpoch = s.globalEpoch) (hadvances : s'.advances = s.advances)
    (hnew : new.phase.collecting = false) : Closing E t s' := by
  have hstage : ∀ phase, Stage E s' phase = Stage E s phase := by
    intro phase
    have hpassed : Passed E s' = Passed E s := by
      rw [Passed, Passed, hadvances]
    cases phase <;> simp only [Stage, hpassed, hhead, hepoch]
  refine ⟨fun k thread ht hk => ?_, fun thread ht => ?_⟩
  · rw [hthreads] at ht
    rcases getElem?_set_cases ht with ⟨-, rfl⟩ | ⟨-, ht⟩
    · exact hnew
    · exact hc.alone k thread ht hk
  · rw [hthreads] at ht
    rcases getElem?_set_cases ht with ⟨heq, -⟩ | ⟨-, ht⟩
    · exact absurd heq.symm hne
    · rw [hstage]
      exact hc.stage thread ht

theorem Closing.push (hc : Closing E t s) {node head : Nat} {fails : Bool} {retry : Nat → Phase}
    {done : Phase} (hnot : ¬ Passed E s)
    (hretry : ∀ h, ∃ keep freed, retry h = .restorePushing node h keep freed)
    (hdone : ∃ keep freed, done = .restoring keep freed) :
    Closing E t (s.push t thread node head fails retry done) := by
  rw [Collector.push]
  split
  · exact hc.own rfl fun hpassed => absurd hpassed hnot
  · dsimp only
    split
    · obtain ⟨keep, freed, heq⟩ := hretry s.garbageHead
      rw [heq]
      exact hc.own rfl hnot
    · obtain ⟨keep, freed, rfl⟩ := hdone
      exact hc.own rfl fun hpassed => absurd hpassed hnot

/-- A stamp up to `E` is two behind the epoch that the sweep has read. -/
theorem aged (hs : s.Inv) (hq : Quiet E s) {now node : Nat} {cell : Cell}
    (hnow : now = s.globalEpoch) (hcell : s.heap node = some cell) (hpassed : Passed E s) :
    now ≥ wrappingAdd cell.epoch 2 := by
  obtain ⟨hle, hlt⟩ := hpassed
  have hstamp := hq.stamps node cell hcell
  have hepoch := hs.epoch
  rw [Nat.mod_eq_of_lt hlt] at hepoch
  rw [wrappingAdd, Nat.mod_eq_of_lt (by omega)]
  omega

theorem Closing.sweep (hc : Closing E t s) (hs : s.Inv) (hq : Quiet E s) {now head freed : Nat}
    {keep : List Nat} (hnow : now = s.globalEpoch)
    (hempty : Passed E s → s.garbageHead = 0 ∧ keep = []) :
    Closing E t (s.sweep t thread now head keep freed) := by
  rw [Collector.sweep]
  split
  · exact hc.own rfl hempty
  · split
    · exact hc.own rfl fun hpassed => (hempty hpassed).1
    · next cell hcell =>
      split
      · exact hc.own rfl ⟨hnow, hempty⟩
      · next hyoung =>
        refine hc.own rfl ⟨hnow, fun hpassed => ?_⟩
        exact absurd (aged hs hq hnow hcell hpassed) hyoung

/-- A step of the collecting thread's calls. -/
theorem Closing.access (hc : Closing E t s) (hs : s.Inv) (hq : Quiet E s)
    (ht : s.threads[t]? = some thread) {fails : Bool}
    (hrun : s.access t thread fails = some s') : Closing E t s' := by
  have hcalm := hq.calm thread (List.mem_of_getElem? ht)
  have hstage := hc.stage thread ht
  rw [Collector.access] at hrun
  split at hrun
  · cases hrun
  · cases hrun
  · next hphase =>
    rw [hphase] at hstage
    cases hrun
    exact hc.own rfl hstage
  · next hphase =>
    rw [hphase] at hcalm
    cases hcalm
  · next hphase =>
    rw [hphase] at hcalm
    cases hcalm
  · next hphase =>
    rw [hphase] at hcalm
    cases hcalm
  · cases hrun
    exact hc.own rfl trivial
  · cases hrun
    rw [scan]
    split
    · exact hc.own rfl trivial
    · split
      · exact hc.own rfl trivial
      · exact hc.own rfl trivial
  · cases hrun
    rw [advance]
    split
    · exact hc.own rfl trivial
    · exact hc.own rfl trivial
  · cases hrun
    exact hc.own rfl rfl
  · next hphase =>
    rw [hphase] at hstage
    cases hrun
    exact hc.own rfl ⟨hstage, fun _ => ⟨rfl, rfl⟩⟩
  · next hphase =>
    rw [hphase] at hstage
    cases hrun
    exact hc.sweep hs hq hstage.1 hstage.2
  · next hphase =>
    rw [hphase] at hstage
    cases hrun
    exact hc.own rfl fun hpassed => (hstage hpassed).1
  · next hphase =>
    rw [hphase] at hstage
    cases hrun
    refine hc.own rfl fun hpassed => ?_
    cases (hstage hpassed).2
  · next hphase =>
    rw [hphase] at hstage
    cases hrun
    exact hc.push hstage (fun _ => ⟨_, _, rfl⟩) ⟨_, _, rfl⟩
  · next hphase =>
    rw [hphase] at hstage
    cases hrun
    refine hc.own rfl ?_
    split <;> exact hstage
  · next hphase =>
    rw [hphase] at hstage
    cases hrun
    exact hc.own rfl hstage

/-- Another thread is neither retiring nor collecting. -/
theorem Closing.access_other (hc : Closing E t s) (hq : Quiet E s) (hne : r ≠ t)
    (hr : s.threads[r]? = some thread) {fails : Bool}
    (hrun : s.access r thread fails = some s') : Closing E t s' := by
  have hcalm := hq.calm thread (List.mem_of_getElem? hr)
  have halone := hc.alone r thread hr hne
  cases hphase : thread.phase with
  | idle =>
    simp only [Collector.access, hphase] at hrun
    cases hrun
  | pinning slot epoch =>
    simp only [Collector.access, hphase] at hrun
    cases hrun
    exact hc.other hne rfl rfl rfl rfl rfl
  | resetting =>
    simp only [Collector.access, hphase] at hrun
    cases hrun
    exact hc.other hne rfl rfl rfl rfl rfl
  | stamping _ | heading _ | pushing _ _ | counting =>
    rw [hphase] at hcalm
    cases hcalm
  | _ =>
    rw [hphase] at halone
    cases halone

theorem Closing.step (hc : Closing E t s) (hs : s.Inv) (hq : Quiet E s)
    (ha : a.isRetire = false ∧ a.isCollect = false) (h : s.step a = some s') :
    Closing E t s' := by
  cases a with
  | pin r slot =>
    obtain ⟨thread, hr, h⟩ := Option.bind_eq_some_iff.mp h
    split at h
    · next hok =>
      cases h
      by_cases hne : r = t
      · subst hne
        have hstage := hc.stage thread hr
        rw [hok.1] at hstage
        exact hc.own rfl hstage
      · exact hc.other hne rfl rfl rfl rfl rfl
    · cases h
  | dropGuard r slot =>
    obtain ⟨thread, hr, h⟩ := Option.bind_eq_some_iff.mp h
    split at h
    · cases h
      by_cases hne : r = t
      · subst hne
        exact hc.own rfl (hc.stage thread hr)
      · exact hc.other hne rfl rfl rfl rfl (hc.alone r thread hr hne)
    · cases h
  | retire r => cases ha.1
  | stamp r address =>
    obtain ⟨thread, hr, h⟩ := Option.bind_eq_some_iff.mp h
    have hcalm := hq.calm thread (List.mem_of_getElem? hr)
    split at h
    · next hphase =>
      rw [hphase] at hcalm
      cases hcalm
    · cases h
  | collect r => cases ha.2
  | run r fails =>
    obtain ⟨thread, hr, h⟩ := Option.bind_eq_some_iff.mp h
    by_cases hne : r = t
    · subst hne
      exact hc.access hs hq hr h
    · exact hc.access_other hq hne hr h

/-- With an empty stack and no call under way every box is destroyed. -/
theorem Inv.all_destroyed (hs : s.Inv) (hcalm : ∀ thread ∈ s.threads, thread.phase.retiring = false)
    (hidle : ∀ thread ∈ s.threads, thread.phase.collecting = false) (hhead : s.garbageHead = 0)
    {o : Nat} (ho : o < s.retired) : o ∈ s.destroyed := by
  obtain ⟨stack, views, h⟩ := hs.kept.accounted
  have hview : ∀ view ∈ views, view.1 ∈ s.threads := by
    intro view hview
    rw [← h.threads]
    exact List.mem_map.mpr ⟨view, hview, rfl⟩
  have hlinked := h.linked
  rw [hhead] at hlinked
  have hunpushed : views.flatMap s.unpushedOf = [] :=
    List.flatMap_eq_nil_iff.mpr fun view hv => h.retiring view hv (hcalm _ (hview view hv))
  have hprivate : views.flatMap s.privateOf = [] :=
    List.flatMap_eq_nil_iff.mpr fun view hv => h.collecting view hv (hidle _ (hview view hv))
  have honce := h.once
  rw [hunpushed, hprivate, hlinked.eq_nil] at honce
  exact honce.mem_iff.mpr (List.mem_range.mpr ho)

-- ---------------------------------------------------------------------------
-- Whole runs
-- ---------------------------------------------------------------------------

/-- From `s` on nothing is retired. A `collect` of thread `t` starts in `mid`,
where the epoch has been advanced since, with no other one under way. In `s'`
it has advanced the epoch again and returned, and none has started since. -/
structure TwoCollects (s mid s' : Collector) (t : Nat) : Prop where
  retired : ∀ thread ∈ s.threads, thread.phase.retiring = false
  before : Reachable step (fun _ a => a.isRetire = false) s mid
  first : s.advances < mid.advances
  starts : ∃ thread, mid.threads[t]? = some thread ∧ thread.phase = .loading
  alone : ∀ (r : Nat) (other : Thread), mid.threads[r]? = some other → r ≠ t →
    other.phase.collecting = false
  after : Reachable step (fun _ a => a.isRetire = false ∧ a.isCollect = false) mid s'
  second : mid.advances < s'.advances
  returned : ∃ thread, s'.threads[t]? = some thread ∧ thread.phase.collecting = false

theorem TwoCollects.all_destroyed (h : TwoCollects s mid s' t) (hs : s.Inv)
    (hwrap : s'.advances < 0x10000000000000000) : ∀ o < s'.retired, o ∈ s'.destroyed := by
  have hquiet : Quiet s.advances s := ⟨hs.stamps, h.retired⟩
  obtain ⟨hmid, hmidQuiet⟩ : mid.Inv ∧ Quiet s.advances mid := by
    refine @Reachable.invariant _ _ _ _ _ _ (fun c => c.Inv ∧ Quiet s.advances c) h.before
      ⟨hs, hquiet⟩ ?_
    intro c a c' hi ha hstep
    exact ⟨hi.1.step hstep, hi.2.step ha hstep⟩
  have hclosing : Closing s.advances t mid := by
    refine ⟨h.alone, fun thread ht => ?_⟩
    obtain ⟨loader, hl, hphase⟩ := h.starts
    cases Option.some.inj (ht.symm.trans hl)
    rw [hphase]
    trivial
  obtain ⟨hs', hq', hc'⟩ : s'.Inv ∧ Quiet s.advances s' ∧ Closing s.advances t s' := by
    refine @Reachable.invariant _ _ _ _ _ _
      (fun c => c.Inv ∧ Quiet s.advances c ∧ Closing s.advances t c) h.after
      ⟨hmid, hmidQuiet, hclosing⟩ ?_
    intro c a c' hi ha hstep
    exact ⟨hi.1.step hstep, hi.2.1.step ha.1 hstep, hi.2.2.step hi.1 hi.2.1 ha hstep⟩
  have hpassed : Passed s.advances s' := by
    have hfirst := h.first
    have hsecond := h.second
    exact ⟨by omega, hwrap⟩
  obtain ⟨thread, ht, hreturned⟩ := h.returned
  have hhead : s'.garbageHead = 0 := by
    have hstage := hc'.stage thread ht
    have hcalm := hq'.calm thread (List.mem_of_getElem? ht)
    cases hphase : thread.phase with
    | idle | pinning _ _ | resetting =>
      rw [hphase] at hstage
      exact hstage hpassed
    | stamping _ | heading _ | pushing _ _ | counting =>
      rw [hphase] at hcalm
      cases hcalm
    | _ =>
      rw [hphase] at hreturned
      cases hreturned
  have hidle : ∀ other ∈ s'.threads, other.phase.collecting = false := by
    intro other ho
    obtain ⟨r, hr⟩ := List.mem_iff_getElem?.mp ho
    by_cases hne : r = t
    · subst hne
      cases Option.some.inj (hr.symm.trans ht)
      exact hreturned
    · exact hc'.alone r other hr hne
  exact fun o ho => hs'.all_destroyed hq'.calm hidle hhead ho

/-- In every reachable state each retired box is in one place, and a second
collect that runs alone leaves none behind. -/
theorem garbage_kept {threads slots : Nat} (h : Reached threads slots s) :
    s.Kept ∧ ∀ mid s' t, TwoCollects s mid s' t → s'.advances < 0x10000000000000000 →
      ∀ o < s'.retired, o ∈ s'.destroyed :=
  ⟨h.inv.kept, fun _ _ _ htwo hwrap => htwo.all_destroyed h.inv hwrap⟩

def after (s : Collector) (as : List Action) : Collector := (run step s as).getD s

def runs (t n : Nat) : List Action := List.replicate n (.run t false)

/-- One box, retired by thread 0. -/
def retiredOne : Collector := (start 3 1).after ([Action.retire 0, .stamp 0 7] ++ runs 0 3)

theorem reached_retiredOne : Reached 3 1 retiredOne :=
  reachable_of_run (fun _ _ => trivial) .start
    (rfl : run step (start 3 1) ([.retire 0, .stamp 0 7] ++ runs 0 3) = some retiredOne)

/-- Thread 1 has collected, and thread 2 starts to. -/
def firstCollected : Collector := retiredOne.after (.collect 1 :: runs 1 12 ++ [Action.collect 2])

def secondCollected : Collector := firstCollected.after (runs 2 10)

theorem twoCollects_retiredOne : TwoCollects retiredOne firstCollected secondCollected 2 where
  retired := by decide
  before := reachable_of_runMeeting .start
    (rfl : runMeeting step (fun _ a => a.isRetire = false) retiredOne
      (.collect 1 :: runs 1 12 ++ [.collect 2]) = some firstCollected)
  first := by decide
  starts := ⟨⟨.loading, [], false⟩, rfl, rfl⟩
  alone := by
    have hthreads : firstCollected.threads =
        [⟨.idle, [], false⟩, ⟨.idle, [], false⟩, ⟨.loading, [], false⟩] := rfl
    intro r other hr hne
    rw [hthreads] at hr
    rcases r with _ | _ | _ | r
    · cases hr
      rfl
    · cases hr
      rfl
    · exact absurd rfl hne
    · cases hr
  after := reachable_of_runMeeting .start
    (rfl : runMeeting step (fun _ a => a.isRetire = false ∧ a.isCollect = false) firstCollected
      (runs 2 10) = some secondCollected)
  second := by decide
  returned := ⟨⟨.idle, [], false⟩, rfl, rfl⟩

theorem garbage_kept_retiredOne :
    retiredOne.Kept ∧ ∀ o < secondCollected.retired, o ∈ secondCollected.destroyed :=
  have h := garbage_kept reached_retiredOne
  ⟨h.1, h.2 firstCollected secondCollected 2 twoCollects_retiredOne (by decide)⟩

/-- Thread 1 advances the epoch and takes the stack; thread 2 advances it again
and finds the stack empty; then thread 1 puts the box back. -/
def overlapped : Collector :=
  retiredOne.after (.collect 1 :: runs 1 6 ++ .collect 2 :: runs 2 9 ++ runs 1 6)

/-- Two collects that both advance the epoch after the last retire, with no
slot pinned, and yet the box is not destroyed. -/
theorem overlapped_not_destroyed :
    Reached 3 1 retiredOne ∧
      runMeeting step (fun _ a => a.isRetire = false ∧ a.isPin = false) retiredOne
        (.collect 1 :: runs 1 6 ++ .collect 2 :: runs 2 9 ++ runs 1 6) = some overlapped ∧
      retiredOne.threads = List.replicate 3 ⟨.idle, [], false⟩ ∧
      overlapped.threads = List.replicate 3 ⟨.idle, [], false⟩ ∧
      retiredOne.slots = [0] ∧ overlapped.slots = [0] ∧
      retiredOne.advances = 0 ∧ overlapped.advances = 2 ∧
      overlapped.retired = 1 ∧ overlapped.destroyed = [] := by
  refine ⟨reached_retiredOne, rfl, ?_⟩
  decide

end Collector

end Garbage

end Sxla
