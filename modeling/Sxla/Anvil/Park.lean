import Sxla.Anvil.Lending

/-!
# The park of the pool, and its shutdown

One step locks the mutex, loads or stores a shared cell, waits, notifies all
waiters, or reads and writes the handoff under the mutex and releases it. A
waiter goes on with its lock once a notification that came after its wait has
released it, and not before.

The owner builds the pool, helper by helper, and drops it when no caller is in
a region. A helper that cannot be spawned has the same stores and joins follow.
-/

namespace Sxla

open Transition

namespace Park

open Lending (Handoff RegionDesc SPIN_BUDGET)

/-- Who holds the mutex. -/
inductive Party where
  | caller (c : Nat)
  | helper (h : Nat)
deriving DecidableEq, Repr

/-- Where a caller stands, before the step of that name. A guard is held in
`publishing`, `reaping` and `handing`. -/
inductive CallerPhase where
  | idle
  | locking
  | publishing
  | parked
  | announcing (gen : Nat)
  | resetting (gen : Nat)
  | notifying (gen : Nat)
  | running (gen : Nat)
  | spinning (gen spin : Nat)
  | relocking (gen : Nat)
  | reaping (gen : Nat)
  | reparked (gen : Nat)
  | handing (panicked : Bool)
  | panicked
deriving DecidableEq, Repr

structure Caller where
  phase : CallerPhase
  results : List Bool
deriving DecidableEq, Repr

/-- Where a helper stands. A guard is held in `testing`, `checking`, `checkedIn`
and `notifying`; in `checking` the flag has been loaded and was not set. -/
inductive HelperPhase where
  | spinning (spin : Nat)
  | peeking (spin : Nat)
  | locking
  | testing
  | checking
  | parked
  | running (myGen : Nat) (desc : RegionDesc)
  | checkingIn (myGen : Nat) (panicked : Bool)
  | checkedIn (myGen : Nat) (panicked : Bool)
  | notifying
  | returned
deriving DecidableEq, Repr

structure Helper where
  seen : Nat
  phase : HelperPhase
deriving DecidableEq, Repr

/-- Where the owner stands: in the loop that spawns, with the pool in use,
before the store of the flag, before the notification, or at the join of a
handle. -/
inductive Owner where
  | spawning
  | opened
  | storing
  | notifying
  | joining (handle : Nat)
  | returned
deriving DecidableEq, Repr

structure PoolInner where
  owner : Owner
  lock : Option Party
  handoff : Handoff
  shutdown : Bool
  pubGeneration : Nat
  doneHint : Nat
  helperCount : Nat
  callers : List Caller
  helpers : List Helper
deriving DecidableEq, Repr

inductive Action where
  | owner
  | spawnFails
  | caller (c : Nat)
  /-- `panics` tells whether a body that ends here has panicked. -/
  | helper (h : Nat) (panics : Bool)
deriving DecidableEq, Repr

def CallerPhase.holds : CallerPhase → Bool
  | .publishing | .reaping _ | .handing _ => true
  | _ => false

/-- A region borrows the pool. -/
def CallerPhase.borrows : CallerPhase → Bool
  | .idle | .panicked => false
  | _ => true

def HelperPhase.holds : HelperPhase → Bool
  | .testing | .checking | .checkedIn _ _ | .notifying => true
  | _ => false

/-- A waiter has to lock again. -/
def CallerPhase.wake : CallerPhase → CallerPhase
  | .parked => .locking
  | .reparked gen => .relocking gen
  | phase => phase

def HelperPhase.wake : HelperPhase → HelperPhase
  | .parked => .locking
  | phase => phase

namespace PoolInner

def start (helperCount callers : Nat) : PoolInner where
  owner := .spawning
  lock := none
  handoff := ⟨none, 0, 0, false, false⟩
  shutdown := false
  pubGeneration := 0
  doneHint := 0
  helperCount := helperCount
  callers := List.replicate callers ⟨.idle, []⟩
  helpers := []

def moveCaller (s : PoolInner) (c : Nat) (caller : Caller) (phase : CallerPhase) : PoolInner :=
  { s with callers := s.callers.set c { caller with phase } }

def moveHelper (s : PoolInner) (h : Nat) (helper : Helper) (phase : HelperPhase) : PoolInner :=
  { s with helpers := s.helpers.set h { helper with phase } }

def notifyAll (s : PoolInner) : PoolInner :=
  { s with
    callers := s.callers.map fun caller => { caller with phase := caller.phase.wake }
    helpers := s.helpers.map fun helper => { helper with phase := helper.phase.wake } }

/-- `publish` under the mutex. The overflow of the generation panics. -/
def publish (s : PoolInner) (c : Nat) (caller : Caller) : PoolInner :=
  if s.handoff.busy then { s.moveCaller c caller .parked with lock := none }
  else if s.handoff.generation + 1 ≥ 0x10000000000000000 then
    { s.moveCaller c caller .panicked with lock := none }
  else
    let gen := s.handoff.generation + 1
    { s.moveCaller c caller (.announcing gen) with
      lock := none
      handoff := ⟨some ⟨c, caller.results.length⟩, gen, 0, false, true⟩ }

/-- `wait_region` under the mutex, up to its notification. -/
def reap (s : PoolInner) (c : Nat) (caller : Caller) (gen : Nat) : PoolInner :=
  let guard := s.handoff
  if guard.busy ∧ guard.generation = gen ∧ guard.done < s.helperCount then
    { s.moveCaller c caller (.reparked gen) with lock := none }
  else if guard.busy ∧ guard.generation = gen ∧ guard.done ≥ s.helperCount then
    { s.moveCaller c caller (.handing guard.panicked) with
      handoff := ⟨none, guard.generation, 0, false, false⟩ }
  else
    { s with
      lock := none
      callers := s.callers.set c ⟨.idle, caller.results ++ [guard.panicked]⟩ }

def stepCaller (s : PoolInner) (c : Nat) (caller : Caller) : Option PoolInner :=
  match caller.phase with
  | .idle => if s.owner = .opened then some (s.moveCaller c caller .locking) else none
  | .locking =>
    if s.lock = none then some { s.moveCaller c caller .publishing with lock := some (.caller c) }
    else none
  | .publishing => some (s.publish c caller)
  | .announcing gen => some { s.moveCaller c caller (.resetting gen) with pubGeneration := gen }
  | .resetting gen => some { s.moveCaller c caller (.notifying gen) with doneHint := 0 }
  | .notifying gen => some (s.moveCaller c caller (.running gen)).notifyAll
  | .running gen => some (s.moveCaller c caller (.spinning gen 0))
  | .spinning gen spin =>
    some (s.moveCaller c caller
      (if spin < SPIN_BUDGET ∧ s.doneHint < s.helperCount then .spinning gen (spin + 1)
      else .relocking gen))
  | .relocking gen =>
    if s.lock = none then
      some { s.moveCaller c caller (.reaping gen) with lock := some (.caller c) }
    else none
  | .reaping gen => some (s.reap c caller gen)
  | .handing panicked =>
    some { s.notifyAll with
      lock := none
      callers := s.notifyAll.callers.set c ⟨.idle, caller.results ++ [panicked]⟩ }
  | .parked | .reparked _ | .panicked => none

/-- A helper under the mutex, behind a load of the flag that was not set: it
takes the region or waits. -/
def takeRegion (s : PoolInner) (h : Nat) (helper : Helper) : PoolInner :=
  if s.handoff.busy ∧ s.handoff.generation > helper.seen then
    match s.handoff.desc with
    | some desc => { s.moveHelper h helper (.running s.handoff.generation desc) with lock := none }
    | none => { s.moveHelper h helper (.spinning 0) with lock := none }
  else { s.moveHelper h helper .parked with lock := none }

/-- The check-in under the mutex. The last one notifies before it releases. -/
def checkIn (s : PoolInner) (h : Nat) (helper : Helper) (myGen : Nat) (panicked : Bool) :
    PoolInner :=
  let guard := { s.handoff with
    done := s.handoff.done + 1
    panicked := s.handoff.panicked || panicked }
  if guard.done ≥ s.helperCount then
    { s.moveHelper h { helper with seen := myGen } .notifying with handoff := guard }
  else { s.moveHelper h { helper with seen := myGen } (.spinning 0) with
    handoff := guard
    lock := none }

def stepHelper (s : PoolInner) (h : Nat) (helper : Helper) (panics : Bool) : Option PoolInner :=
  match helper.phase with
  | .spinning spin =>
    some (s.moveHelper h helper
      (if spin < SPIN_BUDGET then if s.shutdown then .returned else .peeking spin else .locking))
  | .peeking spin =>
    some (s.moveHelper h helper
      (if s.pubGeneration > helper.seen then .locking else .spinning (spin + 1)))
  | .locking =>
    if s.lock = none then some { s.moveHelper h helper .testing with lock := some (.helper h) }
    else none
  | .testing =>
    if s.shutdown then some { s.moveHelper h helper .returned with lock := none }
    else some (s.moveHelper h helper .checking)
  | .checking => some (s.takeRegion h helper)
  | .running myGen _ =>
    some { s.moveHelper h helper (.checkingIn myGen panics) with doneHint := s.doneHint + 1 }
  | .checkingIn myGen panicked =>
    if s.lock = none then
      some { s.moveHelper h helper (.checkedIn myGen panicked) with lock := some (.helper h) }
    else none
  | .checkedIn myGen panicked => some (s.checkIn h helper myGen panicked)
  | .notifying => some { (s.moveHelper h helper (.spinning 0)).notifyAll with lock := none }
  | .parked | .returned => none

/-- `Pool::new`, and the drop of the pool. -/
def stepOwner (s : PoolInner) : Option PoolInner :=
  match s.owner with
  | .spawning =>
    if s.helpers.length < s.helperCount then
      some { s with helpers := s.helpers ++ [⟨0, .spinning 0⟩] }
    else some { s with owner := .opened }
  | .opened =>
    if s.callers.all (!·.phase.borrows) then some { s with owner := .storing } else none
  | .storing => some { s with owner := .notifying, shutdown := true }
  | .notifying => some { s.notifyAll with owner := .joining 0 }
  | .joining handle =>
    match s.helpers[handle]? with
    | some helper =>
      if helper.phase = .returned then some { s with owner := .joining (handle + 1) } else none
    | none => some { s with owner := .returned }
  | .returned => none

def step (s : PoolInner) : Action → Option PoolInner
  | .owner => s.stepOwner
  | .spawnFails =>
    if s.owner = .spawning ∧ s.helpers.length < s.helperCount then some { s with owner := .storing }
    else none
  | .caller c => do s.stepCaller c (← s.callers[c]?)
  | .helper h panics => do s.stepHelper h (← s.helpers[h]?) panics

/-- A helper that waits, or that will: it has seen the flag unset and has no
region to take. -/
def Asleep (s : PoolInner) (helper : Helper) : Prop :=
  helper.phase = .parked ∨
    (helper.phase = .checking ∧ ¬ (s.handoff.busy ∧ s.handoff.generation > helper.seen))

instance (s : PoolInner) (helper : Helper) : Decidable (s.Asleep helper) :=
  inferInstanceAs (Decidable (_ ∨ _))

/-- The owner notifies when no helper is between its load of the flag and a
wait. -/
def NotifiesInTime (s : PoolInner) (a : Action) : Prop :=
  s.owner = .notifying → a = .owner → ∀ helper ∈ s.helpers, helper.phase = .checking →
    ¬ s.Asleep helper

instance (s : PoolInner) (a : Action) : Decidable (s.NotifiesInTime a) :=
  inferInstanceAs (Decidable (_ → _ → ∀ _, _))

-- ---------------------------------------------------------------------------
-- The invariant
-- ---------------------------------------------------------------------------

def Holds (s : PoolInner) : Party → Prop
  | .caller c => ∃ caller, s.callers[c]? = some caller ∧ caller.phase.holds
  | .helper h => ∃ helper, s.helpers[h]? = some helper ∧ helper.phase.holds

end PoolInner

/-- The owner has stored the flag. -/
def Owner.stored : Owner → Prop
  | .notifying | .joining _ | .returned => True
  | _ => False

/-- The owner has notified. -/
def Owner.notified : Owner → Prop
  | .joining _ | .returned => True
  | _ => False

/-- How many steps a helper is from its return at most, once the flag is set. -/
def HelperPhase.rank : HelperPhase → Nat
  | .returned => 0
  | .testing => 1
  | .locking => 2
  | .spinning _ => 3
  | .peeking _ | .notifying => 4
  | .checkedIn _ _ => 5
  | .checkingIn _ _ => 6
  | .running _ _ => 7
  | .checking => 8
  | .parked => 9

theorem HelperPhase.rank_wake (phase : HelperPhase) : phase.wake.rank ≤ phase.rank := by
  cases phase with
  | parked => exact (by decide : 2 ≤ 9)
  | _ => exact Nat.le_refl _

theorem borrows_of_holds {phase : CallerPhase} (h : phase.holds) : phase.borrows := by
  cases phase <;> first | rfl | cases h

theorem stored_of_notified {owner : Owner} (h : owner.notified) : owner.stored := by
  cases owner <;> trivial

namespace PoolInner

/-- While the owner has the pool to itself no region runs, and once it has
notified no helper sleeps. -/
structure Inv (s : PoolInner) : Prop where
  lock : ∀ p, s.lock = some p → s.Holds p
  callers : s.owner ≠ .opened → ∀ caller ∈ s.callers, caller.phase.borrows = false
  shutdown : s.owner.stored → s.shutdown = true
  awake : s.owner.notified → ∀ helper ∈ s.helpers, ¬ s.Asleep helper

variable {s s' : PoolInner} {c h : Nat} {caller new : Caller} {helper : Helper}

theorem start_inv (helperCount callers : Nat) : (start helperCount callers).Inv where
  lock := nofun
  callers := by
    intro _ caller hmem
    obtain rfl := List.eq_of_mem_replicate hmem
    rfl
  shutdown := nofun
  awake := nofun

theorem holds_setCaller {p : Party} (hc : s.callers[c]? = some caller)
    (hnew : p = .caller c → new.phase.holds) (hp : s.Holds p) :
    ({ s with callers := s.callers.set c new } : PoolInner).Holds p := by
  cases p with
  | helper => exact hp
  | caller j =>
    obtain ⟨other, ho, hholds⟩ := hp
    by_cases hj : j = c
    · subst hj
      exact ⟨new, getElem?_set_of hc new, hnew rfl⟩
    · exact ⟨other, (List.getElem?_set_ne (Ne.symm hj)).trans ho, hholds⟩

theorem holds_setHelper {new : Helper} {p : Party} (hh : s.helpers[h]? = some helper)
    (hnew : p = .helper h → new.phase.holds) (hp : s.Holds p) :
    ({ s with helpers := s.helpers.set h new } : PoolInner).Holds p := by
  cases p with
  | caller => exact hp
  | helper j =>
    obtain ⟨other, ho, hholds⟩ := hp
    by_cases hj : j = h
    · subst hj
      exact ⟨new, getElem?_set_of hh new, hnew rfl⟩
    · exact ⟨other, (List.getElem?_set_ne (Ne.symm hj)).trans ho, hholds⟩

theorem holds_notifyAll {p : Party} (hp : s.Holds p) : s.notifyAll.Holds p := by
  cases p with
  | caller j =>
    obtain ⟨other, ho, hholds⟩ := hp
    refine ⟨{ other with phase := other.phase.wake }, ?_, ?_⟩
    · rw [notifyAll, List.getElem?_map, ho]
      rfl
    · cases hphase : other.phase <;> rw [hphase] at hholds <;> first | rfl | cases hholds
  | helper j =>
    obtain ⟨other, ho, hholds⟩ := hp
    refine ⟨{ other with phase := other.phase.wake }, ?_, ?_⟩
    · rw [notifyAll, List.getElem?_map, ho]
      rfl
    · cases hphase : other.phase <;> rw [hphase] at hholds <;> first | rfl | cases hholds

theorem not_asleep (hparked : helper.phase ≠ .parked) (hchecking : helper.phase ≠ .checking) :
    ¬ s.Asleep helper := by
  rintro (h | ⟨h, -⟩)
  · exact hparked h
  · exact hchecking h

theorem wake_not_parked (phase : HelperPhase) : phase.wake ≠ .parked := by
  cases phase <;> nofun

theorem wake_eq_checking {phase : HelperPhase} (h : phase.wake = .checking) : phase = .checking := by
  cases phase <;> first | rfl | cases h

/-- A notification puts no helper to sleep. -/
theorem asleep_of_wake (h : s.Asleep { helper with phase := helper.phase.wake }) :
    helper.phase = .checking ∧ s.Asleep helper := by
  rcases h with h | ⟨h, hstale⟩
  · exact absurd h (wake_not_parked _)
  · have hchecking := wake_eq_checking h
    exact ⟨hchecking, .inr ⟨hchecking, hstale⟩⟩

-- ---------------------------------------------------------------------------
-- The steps
-- ---------------------------------------------------------------------------

/-- A helper goes on. Who holds the mutex still does. -/
theorem Inv.setHelper (hi : s.Inv) (hh : s.helpers[h]? = some helper) (new : Helper)
    (lock : Option Party) (done doneHint : Nat) (panicked : Bool)
    (hlock : ∀ p, lock = some p →
      (p = .helper h ∧ new.phase.holds) ∨ (s.lock = some p ∧ (helper.phase.holds → new.phase.holds)))
    (hawake : s.owner.notified → ¬ s.Asleep new) :
    ({ s with
      helpers := s.helpers.set h new
      lock
      doneHint
      handoff := { s.handoff with done, panicked } } : PoolInner).Inv := by
  refine ⟨?_, hi.callers, hi.shutdown, ?_⟩
  · intro p hp
    rcases hlock p hp with ⟨rfl, hnew⟩ | ⟨hp, hnew⟩
    · exact ⟨new, getElem?_set_of hh new, hnew⟩
    · have hold := hi.lock p hp
      refine holds_setHelper (s := s) hh ?_ hold
      rintro rfl
      obtain ⟨other, ho, hholds⟩ := hold
      rw [hh] at ho
      cases ho
      exact hnew hholds
  · intro hnotified other ho
    rcases mem_set_cases ho with rfl | ho
    · exact hawake hnotified
    · exact hi.awake hnotified other ho

theorem Inv.notifyAll (hi : s.Inv) : s.notifyAll.Inv := by
  refine ⟨fun p hp => holds_notifyAll (hi.lock p hp), ?_, hi.shutdown, ?_⟩
  · intro howner other ho
    obtain ⟨caller, hmem, rfl⟩ := List.mem_map.mp ho
    have hfree := hi.callers howner caller hmem
    cases hphase : caller.phase <;> rw [hphase] at hfree <;> first | rfl | cases hfree
  · intro hnotified other ho hasleep
    obtain ⟨helper, hmem, rfl⟩ := List.mem_map.mp ho
    exact hi.awake hnotified helper hmem (asleep_of_wake (s := s) hasleep).2

theorem Inv.release (hi : s.Inv) : ({ s with lock := none } : PoolInner).Inv :=
  ⟨nofun, hi.callers, hi.shutdown, hi.awake⟩

/-- A helper goes on without the mutex, to where it does not wait. -/
theorem Inv.moveHelper (hi : s.Inv) (hh : s.helpers[h]? = some helper) {phase : HelperPhase}
    (hfree : helper.phase.holds = false) (hparked : phase ≠ .parked) (hchecking : phase ≠ .checking) :
    (s.moveHelper h helper phase).Inv := by
  apply hi.setHelper hh { helper with phase } s.lock s.handoff.done s.doneHint s.handoff.panicked
  · intro p hp
    refine .inr ⟨hp, fun hholds => ?_⟩
    rw [hfree] at hholds
    cases hholds
  · exact fun _ => not_asleep hparked hchecking

theorem Inv.acquire (hi : s.Inv) (hh : s.helpers[h]? = some helper) {phase : HelperPhase}
    (hholds : phase.holds) (hparked : phase ≠ .parked) (hchecking : phase ≠ .checking) :
    ({ s.moveHelper h helper phase with lock := some (.helper h) } : PoolInner).Inv := by
  apply hi.setHelper hh { helper with phase } _ s.handoff.done s.doneHint s.handoff.panicked
  · rintro p ⟨rfl⟩
    exact .inl ⟨rfl, hholds⟩
  · exact fun _ => not_asleep hparked hchecking

/-- A helper goes on and releases the mutex. -/
theorem Inv.leave (hi : s.Inv) (hh : s.helpers[h]? = some helper) {phase : HelperPhase}
    (hawake : s.owner.notified → ¬ s.Asleep { helper with phase }) :
    ({ s.moveHelper h helper phase with lock := none } : PoolInner).Inv :=
  hi.setHelper hh { helper with phase } none s.handoff.done s.doneHint s.handoff.panicked nofun hawake

theorem Inv.takeRegion (hi : s.Inv) (hh : s.helpers[h]? = some helper)
    (hphase : helper.phase = .checking) : (s.takeRegion h helper).Inv := by
  rw [PoolInner.takeRegion]
  by_cases hfresh : s.handoff.busy ∧ s.handoff.generation > helper.seen
  · rw [if_pos hfresh]
    cases s.handoff.desc with
    | some desc => exact hi.leave hh fun _ => not_asleep nofun nofun
    | none => exact hi.leave hh fun _ => not_asleep nofun nofun
  · rw [if_neg hfresh]
    -- behind the notification it would have been asleep before
    exact hi.leave hh fun hnotified =>
      absurd (.inr ⟨hphase, hfresh⟩) (hi.awake hnotified helper (List.mem_of_getElem? hh))

theorem Inv.checkIn (hi : s.Inv) (hh : s.helpers[h]? = some helper) {myGen : Nat} {panicked : Bool} :
    (s.checkIn h helper myGen panicked).Inv := by
  rw [PoolInner.checkIn]
  dsimp only
  by_cases hlast : s.handoff.done + 1 ≥ s.helperCount
  · rw [if_pos hlast]
    apply hi.setHelper hh ⟨myGen, .notifying⟩ s.lock _ s.doneHint _
    · exact fun p hp => .inr ⟨hp, fun _ => rfl⟩
    · exact fun _ => not_asleep nofun nofun
  · rw [if_neg hlast]
    apply hi.setHelper hh ⟨myGen, .spinning 0⟩ none _ s.doneHint _ nofun
    exact fun _ => not_asleep nofun nofun

theorem Inv.stepHelper (hi : s.Inv) {panics : Bool} (hh : s.helpers[h]? = some helper)
    (hstep : s.stepHelper h helper panics = some s') : s'.Inv := by
  unfold PoolInner.stepHelper at hstep
  cases hphase : helper.phase with
  | spinning spin =>
    simp only [hphase] at hstep
    cases hstep
    apply hi.moveHelper hh (by rw [hphase]; rfl)
    · split_ifs <;> nofun
    · split_ifs <;> nofun
  | peeking spin =>
    simp only [hphase] at hstep
    cases hstep
    apply hi.moveHelper hh (by rw [hphase]; rfl)
    · split_ifs <;> nofun
    · split_ifs <;> nofun
  | locking =>
    simp only [hphase] at hstep
    split at hstep
    · cases hstep
      exact hi.acquire hh rfl nofun nofun
    · cases hstep
  | testing =>
    simp only [hphase] at hstep
    split at hstep
    · cases hstep
      exact hi.leave hh fun _ => not_asleep nofun nofun
    · next hunset =>
      cases hstep
      apply hi.setHelper hh { helper with phase := .checking } s.lock s.handoff.done s.doneHint
        s.handoff.panicked
      · exact fun p hp => .inr ⟨hp, fun _ => rfl⟩
      · exact fun hnotified => absurd (hi.shutdown (stored_of_notified hnotified)) hunset
  | checking =>
    simp only [hphase] at hstep
    cases hstep
    exact hi.takeRegion hh hphase
  | running myGen desc =>
    simp only [hphase] at hstep
    cases hstep
    apply hi.setHelper hh { helper with phase := .checkingIn myGen panics } s.lock s.handoff.done _
      s.handoff.panicked
    · intro p hp
      refine .inr ⟨hp, fun hholds => ?_⟩
      rw [hphase] at hholds
      cases hholds
    · exact fun _ => not_asleep nofun nofun
  | checkingIn myGen panicked =>
    simp only [hphase] at hstep
    split at hstep
    · cases hstep
      exact hi.acquire hh rfl nofun nofun
    · cases hstep
  | checkedIn myGen panicked =>
    simp only [hphase] at hstep
    cases hstep
    exact hi.checkIn hh
  | notifying =>
    simp only [hphase] at hstep
    cases hstep
    have hleft : ({ s.moveHelper h helper (.spinning 0) with lock := none } : PoolInner).Inv :=
      hi.leave hh fun _ => not_asleep nofun nofun
    exact hleft.notifyAll
  | parked | returned =>
    simp only [hphase] at hstep
    cases hstep

/-- While the pool is in use only the mutex matters. -/
theorem inv_of_opened (howner : s.owner = .opened) (hlock : ∀ p, s.lock = some p → s.Holds p) :
    s.Inv := by
  refine ⟨hlock, fun hne => absurd howner hne, ?_, ?_⟩
  · intro hstored
    rw [howner] at hstored
    cases hstored
  · intro hnotified
    rw [howner] at hnotified
    cases hnotified

theorem Inv.setCaller (hi : s.Inv) (howner : s.owner = .opened) (hc : s.callers[c]? = some caller)
    (new : Caller) (lock : Option Party) (pubGeneration doneHint : Nat) (handoff : Handoff)
    (hlock : ∀ p, lock = some p →
      (p = .caller c ∧ new.phase.holds) ∨
        (s.lock = some p ∧ (caller.phase.holds → new.phase.holds))) :
    ({ s with callers := s.callers.set c new, lock, pubGeneration, doneHint, handoff } :
      PoolInner).Inv := by
  refine inv_of_opened howner fun p hp => ?_
  rcases hlock p hp with ⟨rfl, hnew⟩ | ⟨hp, hnew⟩
  · exact ⟨new, getElem?_set_of hc new, hnew⟩
  · have hold := hi.lock p hp
    refine holds_setCaller (s := s) hc ?_ hold
    rintro rfl
    obtain ⟨other, ho, hholds⟩ := hold
    rw [hc] at ho
    cases ho
    exact hnew hholds

/-- A caller goes on, and holds the mutex where it did. -/
theorem Inv.moveCaller (hi : s.Inv) (howner : s.owner = .opened) (hc : s.callers[c]? = some caller)
    {phase : CallerPhase} (pubGeneration doneHint : Nat)
    (hholds : caller.phase.holds → phase.holds) :
    ({ s.moveCaller c caller phase with pubGeneration, doneHint } : PoolInner).Inv :=
  hi.setCaller howner hc { caller with phase } s.lock pubGeneration doneHint s.handoff
    fun _ hp => .inr ⟨hp, hholds⟩

theorem Inv.acquireCaller (hi : s.Inv) (howner : s.owner = .opened)
    (hc : s.callers[c]? = some caller) {phase : CallerPhase} (hholds : phase.holds) :
    ({ s.moveCaller c caller phase with lock := some (.caller c) } : PoolInner).Inv := by
  apply hi.setCaller howner hc { caller with phase } _ s.pubGeneration s.doneHint s.handoff
  rintro p ⟨rfl⟩
  exact .inl ⟨rfl, hholds⟩

theorem Inv.leaveCaller (hi : s.Inv) (howner : s.owner = .opened)
    (hc : s.callers[c]? = some caller) (new : Caller) (handoff : Handoff) :
    ({ s with callers := s.callers.set c new, lock := none, handoff } : PoolInner).Inv :=
  hi.setCaller howner hc new none s.pubGeneration s.doneHint handoff nofun

theorem Inv.publish (hi : s.Inv) (howner : s.owner = .opened) (hc : s.callers[c]? = some caller) :
    (s.publish c caller).Inv := by
  rw [PoolInner.publish]
  split_ifs <;> exact hi.leaveCaller howner hc { caller with phase := _ } _

theorem Inv.reap (hi : s.Inv) (howner : s.owner = .opened) (hc : s.callers[c]? = some caller)
    {gen : Nat} : (s.reap c caller gen).Inv := by
  rw [PoolInner.reap]
  dsimp only
  split_ifs
  · exact hi.leaveCaller howner hc { caller with phase := .reparked gen } s.handoff
  · apply hi.setCaller howner hc { caller with phase := .handing s.handoff.panicked } s.lock
      s.pubGeneration s.doneHint
    exact fun p hp => .inr ⟨hp, fun _ => rfl⟩
  · exact hi.leaveCaller howner hc ⟨.idle, _⟩ s.handoff

theorem Inv.stepCaller (hi : s.Inv) (hc : s.callers[c]? = some caller)
    (hstep : s.stepCaller c caller = some s') : s'.Inv := by
  have howner : s.owner = .opened := by
    by_contra hne
    have hfree := hi.callers hne caller (List.mem_of_getElem? hc)
    unfold PoolInner.stepCaller at hstep
    cases hphase : caller.phase with
    | idle =>
      simp only [hphase, if_neg hne] at hstep
      cases hstep
    | panicked =>
      simp only [hphase] at hstep
      cases hstep
    | _ =>
      rw [hphase] at hfree
      cases hfree
  unfold PoolInner.stepCaller at hstep
  cases hphase : caller.phase with
  | idle =>
    simp only [hphase, if_pos howner] at hstep
    cases hstep
    apply hi.moveCaller howner hc
    rw [hphase]
    exact id
  | locking | relocking =>
    simp only [hphase] at hstep
    split at hstep
    · cases hstep
      exact hi.acquireCaller howner hc rfl
    · cases hstep
  | publishing =>
    simp only [hphase] at hstep
    cases hstep
    exact hi.publish howner hc
  | announcing gen | resetting gen | running gen =>
    simp only [hphase] at hstep
    cases hstep
    apply hi.moveCaller howner hc
    rw [hphase]
    exact id
  | notifying gen =>
    simp only [hphase] at hstep
    cases hstep
    refine Inv.notifyAll (hi.moveCaller howner hc s.pubGeneration s.doneHint ?_)
    rw [hphase]
    exact id
  | spinning gen spin =>
    simp only [hphase] at hstep
    cases hstep
    apply hi.moveCaller howner hc
    rw [hphase]
    exact fun hholds => absurd hholds Bool.false_ne_true
  | reaping gen =>
    simp only [hphase] at hstep
    cases hstep
    exact hi.reap howner hc
  | handing panicked =>
    simp only [hphase] at hstep
    cases hstep
    have hwoken : s.notifyAll.callers[c]? = some { caller with phase := caller.phase.wake } := by
      rw [PoolInner.notifyAll, List.getElem?_map, hc]
      rfl
    exact hi.notifyAll.leaveCaller howner hwoken ⟨.idle, _⟩ s.handoff
  | parked | reparked | panicked =>
    simp only [hphase] at hstep
    cases hstep

theorem Inv.stepOwner (hi : s.Inv) (htime : s.NotifiesInTime .owner)
    (hstep : s.stepOwner = some s') : s'.Inv := by
  unfold PoolInner.stepOwner at hstep
  cases howner : s.owner with
  | spawning =>
    simp only [howner] at hstep
    split at hstep
    · cases hstep
      have hfree := hi.callers (by rw [howner]; nofun)
      refine ⟨?_, fun _ => hfree, nofun, nofun⟩
      intro p hp
      have hold := hi.lock p hp
      cases p with
      | caller => exact hold
      | helper j =>
        obtain ⟨other, ho, hholds⟩ := hold
        refine ⟨other, ?_, hholds⟩
        exact (List.getElem?_append_left (List.getElem?_eq_some_iff.mp ho).1).trans ho
    · cases hstep
      exact inv_of_opened rfl hi.lock
  | opened =>
    simp only [howner] at hstep
    split at hstep
    · next hidle =>
      cases hstep
      refine ⟨hi.lock, fun _ caller hmem => ?_, nofun, nofun⟩
      have hfree := List.all_eq_true.mp hidle caller hmem
      exact Bool.not_eq_true' _ |>.mp hfree
    · cases hstep
  | storing =>
    simp only [howner] at hstep
    cases hstep
    have hfree := hi.callers (by rw [howner]; nofun)
    exact ⟨hi.lock, fun _ => hfree, fun _ => rfl, nofun⟩
  | notifying =>
    simp only [howner] at hstep
    cases hstep
    have hset : s.shutdown = true := hi.shutdown (by rw [howner]; trivial)
    have hfree := hi.notifyAll.callers (by
      show s.owner ≠ .opened
      rw [howner]
      nofun)
    refine ⟨fun p hp => holds_notifyAll (hi.lock p hp), fun _ => hfree, fun _ => hset, ?_⟩
    intro _ other ho hasleep
    obtain ⟨helper, hmem, rfl⟩ := List.mem_map.mp ho
    obtain ⟨hchecking, hasleep⟩ := asleep_of_wake (s := s) hasleep
    exact htime howner rfl helper hmem hchecking hasleep
  | joining handle =>
    have hfree := hi.callers (by rw [howner]; nofun)
    have hset : s.shutdown = true := hi.shutdown (by rw [howner]; trivial)
    have hawake := hi.awake (by rw [howner]; trivial)
    simp only [howner] at hstep
    split at hstep
    · split at hstep
      · cases hstep
        exact ⟨hi.lock, fun _ => hfree, fun _ => hset, fun _ => hawake⟩
      · cases hstep
    · cases hstep
      exact ⟨hi.lock, fun _ => hfree, fun _ => hset, fun _ => hawake⟩
  | returned =>
    simp only [howner] at hstep
    cases hstep

theorem Inv.step (hi : s.Inv) {a : Action} (htime : s.NotifiesInTime a)
    (hstep : s.step a = some s') : s'.Inv := by
  cases a with
  | owner => exact hi.stepOwner htime hstep
  | spawnFails =>
    simp only [PoolInner.step] at hstep
    split at hstep
    · next hspawning =>
      cases hstep
      have hfree := hi.callers (by rw [hspawning.1]; nofun)
      exact ⟨hi.lock, fun _ => hfree, nofun, nofun⟩
    · cases hstep
  | caller c =>
    obtain ⟨caller, hc, hstep⟩ := Option.bind_eq_some_iff.mp hstep
    exact hi.stepCaller hc hstep
  | helper h panics =>
    obtain ⟨helper, hh, hstep⟩ := Option.bind_eq_some_iff.mp hstep
    exact hi.stepHelper hh hstep

-- ---------------------------------------------------------------------------
-- The joins
-- ---------------------------------------------------------------------------

def rank (s : PoolInner) : Nat := (s.helpers.map (·.phase.rank)).sum

theorem rank_set {new : Helper} (hh : s.helpers[h]? = some helper)
    (hlt : new.phase.rank < helper.phase.rank) :
    ((s.helpers.set h new).map (·.phase.rank)).sum < s.rank := by
  have hsum := sum_map_set (·.phase.rank) hh new
  rw [rank]
  omega

theorem rank_notifyAll (s : PoolInner) : s.notifyAll.rank ≤ s.rank := by
  rw [rank, rank, notifyAll]
  dsimp only
  induction s.helpers with
  | nil => exact Nat.le_refl _
  | cons helper helpers ih =>
    rw [List.map_cons, List.map_cons, List.map_cons, List.sum_cons, List.sum_cons]
    exact Nat.add_le_add helper.phase.rank_wake ih

/-- A helper that need not wait for the mutex comes closer to its return. -/
theorem Inv.helper_returns (hi : s.Inv) (hnotified : s.owner.notified)
    (hh : s.helpers[h]? = some helper) (hphase : helper.phase ≠ .returned)
    (hfree : s.lock = none ∨ helper.phase.holds) :
    ∃ s', s.step (.helper h false) = some s' ∧ s'.owner = s.owner ∧ s'.rank < s.rank := by
  have hset : s.shutdown = true := hi.shutdown (stored_of_notified hnotified)
  have hstep : s.step (.helper h false) = s.stepHelper h helper false := by
    simp only [PoolInner.step, hh, Option.bind_eq_bind, Option.bind_some]
  rw [hstep]
  unfold PoolInner.stepHelper
  cases hp : helper.phase with
  | spinning spin =>
    refine ⟨_, rfl, rfl, rank_set hh ?_⟩
    rw [hset, hp]
    by_cases hspin : spin < SPIN_BUDGET
    · simp only [hspin, if_true]
      exact (by decide : 0 < 3)
    · simp only [hspin, if_false]
      exact (by decide : 2 < 3)
  | peeking spin =>
    refine ⟨_, rfl, rfl, rank_set hh ?_⟩
    rw [hp]
    by_cases hfresh : s.pubGeneration > helper.seen
    · simp only [hfresh, if_true]
      exact (by decide : 2 < 4)
    · simp only [hfresh, if_false]
      exact (by decide : 3 < 4)
  | locking =>
    have hlock : s.lock = none := hfree.resolve_right (by rw [hp]; decide)
    simp only [hlock, if_true]
    exact ⟨_, rfl, rfl, rank_set hh (by rw [hp]; exact Nat.lt_succ_self 1)⟩
  | testing =>
    simp only [hset, if_true]
    exact ⟨_, rfl, rfl, rank_set hh (by rw [hp]; exact Nat.lt_succ_self 0)⟩
  | checking =>
    have hmem := List.mem_of_getElem? hh
    have hfresh : s.handoff.busy ∧ s.handoff.generation > helper.seen :=
      by_contra fun hstale => hi.awake hnotified helper hmem (.inr ⟨hp, hstale⟩)
    refine ⟨_, rfl, ?_, ?_⟩
    · rw [PoolInner.takeRegion, if_pos hfresh]
      cases s.handoff.desc <;> rfl
    · rw [PoolInner.takeRegion, if_pos hfresh]
      cases s.handoff.desc with
      | some desc => exact rank_set hh (by rw [hp]; exact Nat.lt_succ_self 7)
      | none => exact rank_set hh (by rw [hp]; exact (by decide : 3 < 8))
  | running myGen desc =>
    exact ⟨_, rfl, rfl, rank_set hh (by rw [hp]; exact Nat.lt_succ_self 6)⟩
  | checkingIn myGen panicked =>
    have hlock : s.lock = none := hfree.resolve_right (by rw [hp]; exact Bool.false_ne_true)
    simp only [hlock, if_true]
    exact ⟨_, rfl, rfl, rank_set hh (by rw [hp]; exact Nat.lt_succ_self 5)⟩
  | checkedIn myGen panicked =>
    refine ⟨_, rfl, ?_, ?_⟩
    · rw [PoolInner.checkIn]
      dsimp only
      split <;> rfl
    · rw [PoolInner.checkIn]
      dsimp only
      split
      · exact rank_set hh (by rw [hp]; exact Nat.lt_succ_self 4)
      · exact rank_set hh (by rw [hp]; exact (by decide : 3 < 5))
  | notifying =>
    refine ⟨_, rfl, rfl, ?_⟩
    have hmoved : (s.moveHelper h helper (.spinning 0)).rank < s.rank :=
      rank_set hh (by rw [hp]; exact Nat.lt_succ_self 3)
    exact Nat.lt_of_le_of_lt (rank_notifyAll _) hmoved
  | parked => exact absurd (.inl hp) (hi.awake hnotified helper (List.mem_of_getElem? hh))
  | returned => exact absurd hp hphase

/-- As long as a helper has not returned, some helper can go on. -/
theorem Inv.exists_returns (hi : s.Inv) (hnotified : s.owner.notified)
    (hsome : ∃ helper ∈ s.helpers, helper.phase ≠ .returned) :
    ∃ h s', s.step (.helper h false) = some s' ∧ s'.owner = s.owner ∧ s'.rank < s.rank := by
  have hclosed : s.owner ≠ .opened := by
    intro howner
    rw [howner] at hnotified
    cases hnotified
  cases hlock : s.lock with
  | none =>
    obtain ⟨helper, hmem, hphase⟩ := hsome
    obtain ⟨h, hh⟩ := List.mem_iff_getElem?.mp hmem
    exact ⟨h, hi.helper_returns hnotified hh hphase (.inl hlock)⟩
  | some p =>
    cases p with
    | caller c =>
      obtain ⟨caller, hc, hholds⟩ := hi.lock _ hlock
      have hidle := hi.callers hclosed caller (List.mem_of_getElem? hc)
      rw [borrows_of_holds hholds] at hidle
      cases hidle
    | helper h =>
      obtain ⟨helper, hh, hholds⟩ := hi.lock _ hlock
      refine ⟨h, hi.helper_returns hnotified hh ?_ (.inr hholds)⟩
      intro hphase
      rw [hphase] at hholds
      cases hholds

theorem step_notified {a : Action} (hnotified : s.owner.notified) : s.NotifiesInTime a := by
  intro howner
  rw [howner] at hnotified
  cases hnotified

/-- All helpers come to return. -/
theorem Inv.run_helpers (hi : s.Inv) (hnotified : s.owner.notified) :
    ∃ as s', run PoolInner.step s as = some s' ∧ s'.owner = s.owner ∧
      ∀ helper ∈ s'.helpers, helper.phase = .returned := by
  induction hn : s.rank using Nat.strong_induction_on generalizing s with
  | _ n ih =>
    by_cases hsome : ∃ helper ∈ s.helpers, helper.phase ≠ .returned
    · obtain ⟨h, t, hstep, howner, hrank⟩ := hi.exists_returns hnotified hsome
      rw [hn] at hrank
      have hit := hi.step (step_notified hnotified) hstep
      obtain ⟨as, s', hrun, howner', hall⟩ :=
        ih t.rank hrank hit (howner ▸ hnotified) rfl
      refine ⟨.helper h false :: as, s', ?_, howner'.trans howner, hall⟩
      rw [run, List.foldlM_cons, hstep]
      exact hrun
    · push Not at hsome
      exact ⟨[], s, rfl, rfl, hsome⟩

/-- The joins of helpers that have returned. -/
theorem run_joins (hall : ∀ helper ∈ s.helpers, helper.phase = .returned)
    (hnotified : s.owner.notified) : ∃ as s', run PoolInner.step s as = some s' ∧ s'.owner = .returned := by
  cases howner : s.owner with
  | returned => exact ⟨[], s, rfl, howner⟩
  | joining handle =>
    induction hn : s.helpers.length - handle generalizing s handle with
    | zero =>
      have hnone : s.helpers[handle]? = none := List.getElem?_eq_none (by omega)
      refine ⟨[.owner], { s with owner := .returned }, ?_, rfl⟩
      simp only [run, List.foldlM_cons, List.foldlM_nil, PoolInner.step, stepOwner, howner, hnone,
        Option.bind_eq_bind, Option.bind_some]
      rfl
    | succ n ih =>
      have hlt : handle < s.helpers.length := by omega
      have hsome := List.getElem?_eq_getElem hlt
      have hreturned := hall _ (List.getElem_mem hlt)
      obtain ⟨as, s', hrun, hs'⟩ :=
        ih (s := { s with owner := .joining (handle + 1) }) hall trivial (handle + 1) rfl
          (by show s.helpers.length - (handle + 1) = n; omega)
      refine ⟨.owner :: as, s', ?_, hs'⟩
      rw [run, List.foldlM_cons, PoolInner.step, stepOwner, howner]
      simp only [hsome, hreturned, if_true]
      exact hrun
  | spawning | opened | storing | notifying =>
    rw [howner] at hnotified
    cases hnotified

/-- In runs whose owner notifies in time, no helper waits once it has, and the
joins can complete. -/
theorem shutdown_wakes {helperCount callers : Nat}
    (h : Reachable step NotifiesInTime (start helperCount callers) s) (hnotified : s.owner.notified) :
    (∀ helper ∈ s.helpers, helper.phase ≠ .parked) ∧
      ∃ as s', run PoolInner.step s as = some s' ∧ s'.owner = .returned := by
  have hi : s.Inv := h.invariant (start_inv helperCount callers)
    fun _ _ _ hi htime hstep => hi.step htime hstep
  refine ⟨fun helper hmem hparked => hi.awake hnotified helper hmem (.inl hparked), ?_⟩
  obtain ⟨as, t, hrun, howner, hall⟩ := hi.run_helpers hnotified
  obtain ⟨bs, s', hjoins, hs'⟩ := run_joins hall (howner ▸ hnotified)
  exact ⟨as ++ bs, s', by rw [run_append, hrun]; exact hjoins, hs'⟩

/-- The drop of a pool with one helper that spins. -/
theorem shutdown_wakes_spinning :
    ∃ as s', run PoolInner.step
      ⟨.joining 0, none, ⟨none, 0, 0, false, false⟩, true, 0, 0, 1, [], [⟨0, .spinning 0⟩]⟩ as =
        some s' ∧ s'.owner = .returned := by
  have hrun : runMeeting PoolInner.step NotifiesInTime (start 1 0) (List.replicate 5 .owner) =
      some ⟨.joining 0, none, ⟨none, 0, 0, false, false⟩, true, 0, 0, 1, [], [⟨0, .spinning 0⟩]⟩ := by
    rfl
  exact (shutdown_wakes (reachable_of_runMeeting .start hrun) trivial).2

-- ---------------------------------------------------------------------------
-- A lost notification
-- ---------------------------------------------------------------------------

/-- A helper that is about to wait while the owner notifies is left behind. -/
theorem notify_misses (howner : s.owner = .notifying) (hh : s.helpers[h]? = some helper)
    (hphase : helper.phase = .checking) (hasleep : s.Asleep helper) :
    ∃ s', run PoolInner.step s [.owner, .helper h false] = some s' ∧ s'.owner.notified ∧
      ∃ helper ∈ s'.helpers, helper.phase = .parked := by
  have hstale : ¬ (s.handoff.busy ∧ s.handoff.generation > helper.seen) := by
    rcases hasleep with hparked | ⟨-, hstale⟩
    · rw [hphase] at hparked
      cases hparked
    · exact hstale
  have hkept : s.notifyAll.helpers[h]? = some helper := by
    rw [notifyAll, List.getElem?_map, hh]
    obtain ⟨seen, phase⟩ := helper
    cases hphase
    rfl
  have hstep : run PoolInner.step s [.owner, .helper h false] =
      some (takeRegion { s.notifyAll with owner := .joining 0 } h helper) := by
    simp only [run, List.foldlM_cons, List.foldlM_nil, PoolInner.step, stepOwner, howner,
      stepHelper, hkept, hphase, Option.bind_eq_bind, Option.bind_some]
    rfl
  have htake : takeRegion { s.notifyAll with owner := .joining 0 } h helper =
      { moveHelper { s.notifyAll with owner := .joining 0 } h helper .parked with lock := none } :=
    if_neg hstale
  rw [htake] at hstep
  exact ⟨_, hstep, trivial, _, List.mem_of_getElem? (getElem?_set_of hkept _), rfl⟩

/-- A pool in use, with one helper and no region yet. -/
def unused (phase : HelperPhase) : PoolInner :=
  ⟨.opened, none, ⟨none, 0, 0, false, false⟩, false, 0, 0, 1, [], [⟨0, phase⟩]⟩

theorem unused_reached {spin : Nat} (hspin : spin ≤ SPIN_BUDGET) :
    Reachable PoolInner.step (fun _ _ => True) (start 1 0) (unused (.spinning spin)) := by
  induction spin with
  | zero =>
    have hrun : run PoolInner.step (start 1 0) [.owner, .owner] = some (unused (.spinning 0)) := rfl
    exact reachable_of_run (fun _ _ => trivial) .start hrun
  | succ spin ih =>
    have hpeek : (unused (.spinning spin)).step (.helper 0 false) =
        some (unused (.peeking spin)) := by
      have hlt : spin < SPIN_BUDGET := hspin
      simp only [unused, PoolInner.step, stepHelper, moveHelper, List.getElem?_cons_zero, hlt,
        if_true, Option.bind_eq_bind, Option.bind_some]
      rfl
    exact (((ih (Nat.le_of_succ_le hspin)).step trivial hpeek).step (a := .helper 0 false) trivial rfl)

/-- The owner is about to notify, the helper to wait. -/
def missed : PoolInner :=
  { unused .checking with owner := .notifying, lock := some (.helper 0), shutdown := true }

/-- A helper that has spun out sees the flag unset, the owner stores it and
notifies, and the helper waits. -/
theorem shutdown_leaves_asleep :
    ¬ ∀ helperCount callers s,
      Reachable PoolInner.step (fun _ _ => True) (start helperCount callers) s →
      s.owner.notified → ∀ helper ∈ s.helpers, helper.phase ≠ .parked := by
  intro hall
  have hspun := unused_reached (Nat.le_refl SPIN_BUDGET)
  have hrun : run PoolInner.step (unused (.spinning SPIN_BUDGET))
      [.helper 0 false, .helper 0 false, .helper 0 false, .owner, .owner] = some missed := by
    rfl
  have hlate := reachable_of_run (fun _ _ => trivial) hspun hrun
  obtain ⟨s', hrun, hnotified, helper, hmem, hparked⟩ :=
    @notify_misses missed 0 ⟨0, .checking⟩ rfl rfl rfl (by decide)
  exact hall 1 0 s' (reachable_of_run (fun _ _ => trivial) hlate hrun) hnotified helper hmem hparked

end PoolInner

end Park

end Sxla
