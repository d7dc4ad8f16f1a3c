import Sxla.Library.Transition
import Mathlib.Data.List.Count

/-!
# The lending barrier of the pool

Callers publish regions to the helpers of a pool, one at a time, and wait for
every helper to check in. A critical section of the mutex is one step; a
thread that waits on the condition variable takes its step once what it waits
for holds. The two hints are shared cells that the critical sections do not
protect.

A region is named by the caller that published it and by how many regions
that caller has published before. The pool keeps the list of all published
regions and each helper the list of those it has run.
-/

namespace Sxla

open Transition

namespace Lending

def SPIN_BUDGET : Nat := 8192

/-- What `ctx` points at: a frame of the lending caller. -/
structure RegionDesc where
  caller : Nat
  region : Nat
deriving DecidableEq, Repr

structure Handoff where
  desc : Option RegionDesc
  generation : Nat
  done : Nat
  panicked : Bool
  busy : Bool
deriving DecidableEq, Repr

/-- Where a caller stands: outside a region, before the stores of the two
hints, in the body of worker 0, at a load of the done hint, or before the
critical section of `wait_region`. -/
inductive CallerPhase where
  | idle
  | announcing (gen : Nat)
  | resetting (gen : Nat)
  | running (gen : Nat)
  | spinning (gen spin : Nat)
  | waiting (gen : Nat)
  | panicked
deriving DecidableEq, Repr

/-- `results` tells for each region whose `wait_region` has returned whether
it reported a panic. -/
structure Caller where
  phase : CallerPhase
  results : List Bool
deriving DecidableEq, Repr

/-- Where a helper stands: before a load of the shutdown flag or of the
generation hint, before its critical section, in the body of a region, before
the check-in, or out of its loop. -/
inductive HelperPhase where
  | spinning (spin : Nat)
  | peeking (spin : Nat)
  | locking
  | running (myGen : Nat) (desc : RegionDesc)
  | checkingIn (myGen : Nat) (desc : RegionDesc) (panicked : Bool)
  | returned
deriving DecidableEq, Repr

structure Helper where
  seen : Nat
  phase : HelperPhase
  ran : List RegionDesc
deriving DecidableEq, Repr

structure PoolInner where
  handoff : Handoff
  shutdown : Bool
  pubGeneration : Nat
  doneHint : Nat
  callers : List Caller
  helpers : List Helper
  published : List RegionDesc
deriving DecidableEq, Repr

inductive Action where
  | caller (c : Nat)
  /-- `panics` tells whether a body that ends here has panicked. -/
  | helper (h : Nat) (panics : Bool)
  /-- The flag that the drop of the pool sets. -/
  | shutdown
deriving DecidableEq, Repr

/-- The generation of the region a caller is in. -/
def CallerPhase.gen? : CallerPhase → Option Nat
  | .announcing gen | .resetting gen | .running gen | .spinning gen _ | .waiting gen => some gen
  | .idle | .panicked => none

/-- The region a helper has read and not checked in for, and its generation. -/
def HelperPhase.region? : HelperPhase → Option (Nat × RegionDesc)
  | .running myGen desc | .checkingIn myGen desc _ => some (myGen, desc)
  | _ => none

/-- The regions a helper has run and not checked in for. -/
def HelperPhase.ahead : HelperPhase → Nat
  | .checkingIn _ _ _ => 1
  | _ => 0

namespace PoolInner

def start (helpers callers : Nat) : PoolInner where
  handoff := ⟨none, 0, 0, false, false⟩
  shutdown := false
  pubGeneration := 0
  doneHint := 0
  callers := List.replicate callers ⟨.idle, []⟩
  helpers := List.replicate helpers ⟨0, .spinning 0, []⟩
  published := []

def moveCaller (s : PoolInner) (c : Nat) (caller : Caller) (phase : CallerPhase) : PoolInner :=
  { s with callers := s.callers.set c { caller with phase } }

def moveHelper (s : PoolInner) (h : Nat) (helper : Helper) (phase : HelperPhase) : PoolInner :=
  { s with helpers := s.helpers.set h { helper with phase } }

/-- The critical section of `publish`. The counter of generations is a `u64`
and its overflow panics. -/
def publish (s : PoolInner) (c : Nat) (caller : Caller) : Option PoolInner :=
  if s.shutdown ∨ s.handoff.busy then none
  else if s.handoff.generation + 1 ≥ 0x10000000000000000 then
    some (s.moveCaller c caller .panicked)
  else
    let gen := s.handoff.generation + 1
    let desc : RegionDesc := ⟨c, caller.results.length⟩
    some { s.moveCaller c caller (.announcing gen) with
      handoff := ⟨some desc, gen, 0, false, true⟩
      published := s.published ++ [desc] }

/-- The critical section of `wait_region`. -/
def waitRegion (s : PoolInner) (c : Nat) (caller : Caller) (gen : Nat) : Option PoolInner :=
  let guard := s.handoff
  if guard.busy ∧ guard.generation = gen ∧ guard.done < s.helpers.length then none
  else
    let reaps := guard.busy ∧ guard.generation = gen ∧ guard.done ≥ s.helpers.length
    some { s with
      callers := s.callers.set c ⟨.idle, caller.results ++ [guard.panicked]⟩
      handoff := if reaps then ⟨none, guard.generation, 0, false, false⟩ else guard }

def stepCaller (s : PoolInner) (c : Nat) (caller : Caller) : Option PoolInner :=
  match caller.phase with
  | .idle => s.publish c caller
  | .announcing gen => some { s.moveCaller c caller (.resetting gen) with pubGeneration := gen }
  | .resetting gen => some { s.moveCaller c caller (.running gen) with doneHint := 0 }
  | .running gen => some (s.moveCaller c caller (.spinning gen 0))
  | .spinning gen spin =>
    some (s.moveCaller c caller
      (if spin < SPIN_BUDGET ∧ s.doneHint < s.helpers.length then .spinning gen (spin + 1)
      else .waiting gen))
  | .waiting gen => s.waitRegion c caller gen
  | .panicked => none

/-- The critical section in which a helper waits for a region and reads its
descriptor. -/
def takeRegion (s : PoolInner) (h : Nat) (helper : Helper) : Option PoolInner :=
  if s.shutdown then some (s.moveHelper h helper .returned)
  else if s.handoff.busy ∧ s.handoff.generation > helper.seen then
    match s.handoff.desc with
    | some desc => some (s.moveHelper h helper (.running s.handoff.generation desc))
    | none => some (s.moveHelper h helper (.spinning 0))
  else none

/-- The body of the region, up to the increment of the done hint. -/
def runRegion (s : PoolInner) (h : Nat) (helper : Helper) (myGen : Nat) (desc : RegionDesc)
    (panics : Bool) : PoolInner :=
  { s with
    doneHint := s.doneHint + 1
    helpers := s.helpers.set h
      { helper with phase := .checkingIn myGen desc panics, ran := helper.ran ++ [desc] } }

/-- The critical section of the check-in. -/
def checkIn (s : PoolInner) (h : Nat) (helper : Helper) (myGen : Nat) (panicked : Bool) :
    PoolInner :=
  { s with
    handoff := { s.handoff with
      done := s.handoff.done + 1
      panicked := s.handoff.panicked || panicked }
    helpers := s.helpers.set h { helper with seen := myGen, phase := .spinning 0 } }

def stepHelper (s : PoolInner) (h : Nat) (helper : Helper) (panics : Bool) : Option PoolInner :=
  match helper.phase with
  | .spinning spin =>
    some (s.moveHelper h helper
      (if spin < SPIN_BUDGET then if s.shutdown then .returned else .peeking spin else .locking))
  | .peeking spin =>
    some (s.moveHelper h helper
      (if s.pubGeneration > helper.seen then .locking else .spinning (spin + 1)))
  | .locking => s.takeRegion h helper
  | .running myGen desc => some (s.runRegion h helper myGen desc panics)
  | .checkingIn myGen _ panicked => some (s.checkIn h helper myGen panicked)
  | .returned => none

/-- The drop has the pool to itself: no caller is in a region, and none
publishes from here on. -/
def stepShutdown (s : PoolInner) : Option PoolInner :=
  if s.callers.all (·.phase.gen? = none) then some { s with shutdown := true } else none

def step (s : PoolInner) : Action → Option PoolInner
  | .caller c => do s.stepCaller c (← s.callers[c]?)
  | .helper h panics => do s.stepHelper h (← s.helpers[h]?) panics
  | .shutdown => s.stepShutdown

/-- The caller's `wait_region` for this region has returned. -/
def returned (s : PoolInner) (d : RegionDesc) : Prop :=
  ∃ caller, s.callers[d.caller]? = some caller ∧ d.region < caller.results.length

-- ---------------------------------------------------------------------------
-- The barrier
-- ---------------------------------------------------------------------------

/-- A helper has checked in for the current generation, or for all before it
while the region is live. What it reads is the live region. -/
structure HelperOk (g : Handoff) (published : List RegionDesc) (helper : Helper) : Prop where
  seen : helper.seen = g.generation ∨ (g.busy ∧ helper.seen + 1 = g.generation)
  reading : ∀ gen d, helper.phase.region? = some (gen, d) →
    g.busy ∧ gen = g.generation ∧ g.desc = some d ∧ helper.seen + 1 = g.generation
  ran : helper.ran = published.take (helper.seen + helper.phase.ahead)

structure Inv (s : PoolInner) : Prop where
  generation : s.handoff.generation = s.published.length
  busy : s.handoff.busy = s.handoff.desc.isSome
  live : ∀ d, s.handoff.desc = some d → s.published.getLast? = some d
  done : s.handoff.busy → s.handoff.done = s.helpers.countP (·.seen = s.handoff.generation)
  helpers : ∀ helper ∈ s.helpers, HelperOk s.handoff s.published helper
  active : ∀ c caller gen, s.callers[c]? = some caller → caller.phase.gen? = some gen →
    gen = s.handoff.generation ∧ s.handoff.desc = some ⟨c, caller.results.length⟩
  owner : ∀ d, s.handoff.desc = some d →
    ∃ caller, s.callers[d.caller]? = some caller ∧ d.region = caller.results.length
  reaped : ∀ d ∈ s.published, s.returned d ∨ s.handoff.desc = some d
  nodup : s.published.Nodup

variable {s s' : PoolInner} {c h : Nat} {caller : Caller} {helper : Helper}

theorem start_inv (helpers callers : Nat) : (start helpers callers).Inv where
  generation := rfl
  busy := rfl
  live := nofun
  done := nofun
  helpers := by
    intro helper hmem
    obtain rfl := List.eq_of_mem_replicate hmem
    exact ⟨.inl rfl, nofun, rfl⟩
  active := by
    intro c caller gen hc hgen
    obtain rfl := List.eq_of_mem_replicate (List.mem_of_getElem? hc)
    cases hgen
  owner := nofun
  reaped := nofun
  nodup := .nil

/-- The hints and the shutdown flag do not matter. -/
theorem Inv.hints (hs : s.Inv) (shutdown : Bool) (pubGeneration doneHint : Nat) :
    ({ s with shutdown, pubGeneration, doneHint } : PoolInner).Inv :=
  ⟨hs.generation, hs.busy, hs.live, hs.done, hs.helpers, hs.active, hs.owner, hs.reaped, hs.nodup⟩

/-- What has returned stays returned. -/
theorem returned_set {d : RegionDesc} (hc : s.callers[c]? = some caller) (new : Caller)
    (hresults : caller.results.length ≤ new.results.length)
    (hcallers : s'.callers = s.callers.set c new) (hd : s.returned d) : s'.returned d := by
  obtain ⟨other, ho, hlt⟩ := hd
  rw [returned, hcallers]
  by_cases hdc : d.caller = c
  · rw [hdc, hc] at ho
    cases ho
    exact ⟨new, hdc ▸ getElem?_set_of hc new, by omega⟩
  · exact ⟨other, (List.getElem?_set_ne (Ne.symm hdc)).trans ho, hlt⟩

/-- A caller goes on within its region, or outside of one. -/
theorem Inv.moveCaller (hs : s.Inv) (hc : s.callers[c]? = some caller) {phase : CallerPhase}
    (hphase : ∀ gen, phase.gen? = some gen → caller.phase.gen? = some gen) :
    (s.moveCaller c caller phase).Inv := by
  refine ⟨hs.generation, hs.busy, hs.live, hs.done, hs.helpers, ?_, ?_, ?_, hs.nodup⟩
  · intro j other gen ho hgen
    rcases getElem?_set_cases ho with ⟨rfl, rfl⟩ | ⟨-, ho⟩
    · exact hs.active j caller gen hc (hphase gen hgen)
    · exact hs.active j other gen ho hgen
  · intro d hd
    obtain ⟨other, ho, hregion⟩ := hs.owner d hd
    by_cases hdc : d.caller = c
    · rw [hdc, hc] at ho
      cases ho
      exact ⟨{ caller with phase }, hdc ▸ getElem?_set_of hc _, hregion⟩
    · exact ⟨other, (List.getElem?_set_ne (Ne.symm hdc)).trans ho, hregion⟩
  · intro d hd
    exact (hs.reaped d hd).imp_left (returned_set hc { caller with phase } (Nat.le_refl _) rfl)

/-- A helper goes on outside of a region. -/
theorem Inv.moveHelper (hs : s.Inv) (hh : s.helpers[h]? = some helper) {phase : HelperPhase}
    (hold : helper.phase.region? = none) (hnew : phase.region? = none) :
    (s.moveHelper h helper phase).Inv := by
  have hahead : ∀ phase : HelperPhase, phase.region? = none → phase.ahead = 0 := by
    intro phase hnone
    cases phase <;> first | rfl | cases hnone
  refine ⟨hs.generation, hs.busy, hs.live, ?_, ?_, hs.active, hs.owner, hs.reaped, hs.nodup⟩
  · intro hbusy
    have hcount := countP_set (fun h => decide (h.seen = s.handoff.generation)) hh
      { helper with phase }
    exact (hs.done hbusy).trans (Nat.add_right_cancel hcount).symm
  · intro other ho
    rcases mem_set_cases ho with rfl | ho
    · have hok := hs.helpers helper (List.mem_of_getElem? hh)
      refine ⟨hok.seen, ?_, ?_⟩
      · intro gen d hregion
        rw [hnew] at hregion
        cases hregion
      · rw [hahead phase hnew]
        exact hahead _ hold ▸ hok.ran
    · exact hs.helpers other ho

/-- While no region is live, every helper has checked in for all. -/
theorem Inv.idle (hs : s.Inv) (hbusy : s.handoff.busy = false) (hmem : helper ∈ s.helpers) :
    helper.seen = s.handoff.generation ∧ helper.phase.region? = none := by
  have hok := hs.helpers helper hmem
  constructor
  · rcases hok.seen with heq | ⟨hlive, -⟩
    · exact heq
    · rw [hbusy] at hlive
      cases hlive
  · cases hregion : helper.phase.region? with
    | none => rfl
    | some region =>
      have hlive := (hok.reading region.1 region.2 hregion).1
      rw [hbusy] at hlive
      cases hlive

theorem Inv.publish (hs : s.Inv) (hc : s.callers[c]? = some caller)
    (hstep : s.publish c caller = some s') : s'.Inv := by
  rw [PoolInner.publish] at hstep
  split at hstep
  · cases hstep
  next hfree =>
  split at hstep
  · cases hstep
    exact hs.moveCaller hc nofun
  cases hstep
  have hbusy : s.handoff.busy = false := by
    cases hb : s.handoff.busy with
    | false => rfl
    | true => exact absurd (.inr hb) hfree
  have hnone : s.handoff.desc = none := by
    have hdesc := hs.busy
    rw [hbusy] at hdesc
    exact Option.isSome_eq_false_iff.mp hdesc.symm |> Option.isNone_iff_eq_none.mp
  have hfresh : (⟨c, caller.results.length⟩ : RegionDesc) ∉ s.published := by
    intro hmem
    rcases hs.reaped _ hmem with ⟨other, ho, hlt⟩ | hdesc
    · rw [hc] at ho
      cases ho
      exact Nat.lt_irrefl _ hlt
    · rw [hnone] at hdesc
      cases hdesc
  refine ⟨?_, rfl, ?_, ?_, ?_, ?_, ?_, ?_, ?_⟩
  · show s.handoff.generation + 1 = (s.published ++ [_]).length
    rw [hs.generation, List.length_append]
    rfl
  · intro d hd
    cases hd
    exact List.getLast?_concat
  · intro _
    refine (List.countP_eq_zero.mpr ?_).symm
    intro other ho hseen
    have hold := (hs.idle hbusy ho).1
    have hnew := of_decide_eq_true hseen
    rw [hold] at hnew
    exact Nat.succ_ne_self _ hnew.symm
  · intro other ho
    obtain ⟨hseen, hregion⟩ := hs.idle hbusy ho
    have hok := hs.helpers other ho
    refine ⟨.inr ⟨rfl, congrArg (· + 1) hseen⟩, ?_, ?_⟩
    · intro gen d hd
      rw [hregion] at hd
      cases hd
    · have hahead : other.phase.ahead = 0 := by
        cases hp : other.phase <;> first | rfl | (rw [hp] at hregion; cases hregion)
      rw [hok.ran, hahead, List.take_append_of_le_length]
      rw [hseen, hs.generation]
      exact Nat.le_refl _
  · intro j other gen ho hgen
    rcases getElem?_set_cases ho with ⟨rfl, rfl⟩ | ⟨-, ho⟩
    · cases hgen
      exact ⟨rfl, rfl⟩
    · have hdesc := (hs.active j other gen ho hgen).2
      rw [hnone] at hdesc
      cases hdesc
  · intro d hd
    cases hd
    exact ⟨_, getElem?_set_of hc _, rfl⟩
  · intro d hd
    rcases List.mem_append.mp hd with hd | hd
    · rcases hs.reaped d hd with hret | hdesc
      · exact .inl (returned_set hc { caller with phase := .announcing _ } (Nat.le_refl _) rfl hret)
      · rw [hnone] at hdesc
        cases hdesc
    · cases List.mem_singleton.mp hd
      exact .inr rfl
  · exact List.nodup_append.mpr ⟨hs.nodup, List.pairwise_singleton _ _, fun d hd d' hd' heq =>
      hfresh (by cases List.mem_singleton.mp hd'; exact heq ▸ hd)⟩

/-- The caller of a live region returns once all helpers have checked in, and
reaps the region. -/
theorem Inv.waitRegion (hs : s.Inv) (hc : s.callers[c]? = some caller) {gen : Nat}
    (hphase : caller.phase = .waiting gen) (hstep : s.waitRegion c caller gen = some s') :
    s'.Inv := by
  obtain ⟨rfl, hdesc⟩ := hs.active c caller gen hc (by rw [hphase]; rfl)
  have hbusy : s.handoff.busy := by rw [hs.busy, hdesc]; rfl
  rw [PoolInner.waitRegion] at hstep
  split at hstep
  · cases hstep
  next hcond =>
  have hdone : s.helpers.length ≤ s.handoff.done :=
    Nat.le_of_not_lt fun hlt => hcond ⟨hbusy, rfl, hlt⟩
  dsimp only at hstep
  rw [if_pos ⟨hbusy, rfl, hdone⟩] at hstep
  cases hstep
  have hall : ∀ other ∈ s.helpers, other.seen = s.handoff.generation := by
    have hcount := hs.done hbusy
    have hfull : s.helpers.countP (·.seen = s.handoff.generation) = s.helpers.length :=
      Nat.le_antisymm List.countP_le_length (hcount ▸ hdone)
    intro other ho
    exact of_decide_eq_true (List.countP_eq_length.mp hfull other ho)
  refine ⟨hs.generation, rfl, nofun, nofun, ?_, ?_, nofun, ?_, hs.nodup⟩
  · intro other ho
    have hok := hs.helpers other ho
    refine ⟨.inl (hall other ho), ?_, hok.ran⟩
    intro gen d hregion
    have hlate := (hok.reading gen d hregion).2.2.2
    rw [hall other ho] at hlate
    exact absurd hlate (Nat.succ_ne_self _)
  · intro j other gen ho hgen
    rcases getElem?_set_cases ho with ⟨rfl, rfl⟩ | ⟨hne, ho⟩
    · cases hgen
    · have hother := (hs.active j other gen ho hgen).2
      rw [hdesc] at hother
      exact absurd (congrArg RegionDesc.caller (Option.some.inj hother)).symm hne
  · intro d hd
    left
    let new : Caller := ⟨.idle, caller.results ++ [s.handoff.panicked]⟩
    have hlen : new.results.length = caller.results.length + 1 := List.length_append
    rcases hs.reaped d hd with hret | hd
    · exact returned_set hc new (by omega) rfl hret
    · rw [hdesc] at hd
      cases hd
      exact ⟨new, getElem?_set_of hc new, by show caller.results.length < _; omega⟩

theorem Inv.takeRegion (hs : s.Inv) (hh : s.helpers[h]? = some helper)
    (hphase : helper.phase = .locking) (hstep : s.takeRegion h helper = some s') : s'.Inv := by
  have hold : helper.phase.region? = none := by rw [hphase]; rfl
  rw [PoolInner.takeRegion] at hstep
  split at hstep
  · cases hstep
    exact hs.moveHelper hh hold rfl
  split at hstep
  · next hfresh =>
    split at hstep
    · next desc hdesc =>
      cases hstep
      have hok := hs.helpers helper (List.mem_of_getElem? hh)
      have hseen : helper.seen + 1 = s.handoff.generation := by
        rcases hok.seen with heq | ⟨-, hlate⟩
        · omega
        · exact hlate
      refine ⟨hs.generation, hs.busy, hs.live, ?_, ?_, hs.active, hs.owner, hs.reaped, hs.nodup⟩
      · intro hbusy
        have hcount := countP_set (fun h => decide (h.seen = s.handoff.generation)) hh
          { helper with phase := .running s.handoff.generation desc }
        exact (hs.done hbusy).trans (Nat.add_right_cancel hcount).symm
      · intro other ho
        rcases mem_set_cases ho with rfl | ho
        · refine ⟨hok.seen, ?_, ?_⟩
          · intro gen d hregion
            cases hregion
            exact ⟨hfresh.1, rfl, hdesc, hseen⟩
          · have hran := hok.ran
            rw [hphase] at hran
            exact hran
        · exact hs.helpers other ho
    · cases hstep
      exact hs.moveHelper hh hold rfl
  · cases hstep

theorem Inv.runRegion (hs : s.Inv) (hh : s.helpers[h]? = some helper) {gen : Nat}
    {desc : RegionDesc} {panics : Bool} (hphase : helper.phase = .running gen desc) :
    (s.runRegion h helper gen desc panics).Inv := by
  have hok := hs.helpers helper (List.mem_of_getElem? hh)
  have hreading := hok.reading gen desc (by rw [hphase]; rfl)
  refine ⟨hs.generation, hs.busy, hs.live, ?_, ?_, hs.active, hs.owner, hs.reaped, hs.nodup⟩
  · intro hbusy
    have hcount := countP_set (fun h => decide (h.seen = s.handoff.generation)) hh
      { helper with phase := .checkingIn gen desc panics, ran := helper.ran ++ [desc] }
    exact (hs.done hbusy).trans (Nat.add_right_cancel hcount).symm
  · intro other ho
    rcases mem_set_cases ho with rfl | ho
    · refine ⟨hok.seen, ?_, ?_⟩
      · intro gen' d hregion
        cases hregion
        exact hreading
      · obtain ⟨-, -, hdesc, hseen⟩ := hreading
        have hran := hok.ran
        rw [hphase] at hran
        have hlast := hs.live desc hdesc
        rw [List.getLast?_eq_getElem?] at hlast
        have hindex : s.published.length - 1 = helper.seen := by
          rw [← hs.generation, ← hseen]
          rfl
        rw [hindex] at hlast
        show helper.ran ++ [desc] = s.published.take (helper.seen + 1)
        rw [hran, List.take_add_one, hlast]
        rfl
    · exact hs.helpers other ho

theorem Inv.checkIn (hs : s.Inv) (hh : s.helpers[h]? = some helper) {gen : Nat}
    {desc : RegionDesc} {panicked : Bool} (hphase : helper.phase = .checkingIn gen desc panicked) :
    (s.checkIn h helper gen panicked).Inv := by
  have hok := hs.helpers helper (List.mem_of_getElem? hh)
  obtain ⟨-, rfl, -, hseen⟩ := hok.reading gen desc (by rw [hphase]; rfl)
  refine ⟨hs.generation, hs.busy, hs.live, ?_, ?_, hs.active, hs.owner, hs.reaped, hs.nodup⟩
  · intro hbusy
    have hcount := countP_set (fun h => decide (h.seen = s.handoff.generation)) hh
      { helper with seen := s.handoff.generation, phase := .spinning 0 }
    have hlate : ¬ helper.seen = s.handoff.generation := by omega
    simp only [hlate, decide_false, Bool.false_eq_true, if_false, decide_true, if_true] at hcount
    exact (congrArg (· + 1) (hs.done hbusy)).trans hcount.symm
  · intro other ho
    rcases mem_set_cases ho with rfl | ho
    · refine ⟨.inl rfl, nofun, ?_⟩
      have hran := hok.ran
      rw [hphase] at hran
      show helper.ran = s.published.take (s.handoff.generation + 0)
      rw [← hseen]
      exact hran
    · have hother := hs.helpers other ho
      exact ⟨hother.seen, hother.reading, hother.ran⟩

theorem Inv.stepCaller (hs : s.Inv) (hc : s.callers[c]? = some caller)
    (hstep : s.stepCaller c caller = some s') : s'.Inv := by
  rw [PoolInner.stepCaller] at hstep
  split at hstep
  · exact hs.publish hc hstep
  · next gen hphase =>
    cases hstep
    exact (hs.moveCaller hc fun _ hgen => by rw [hphase]; exact hgen).hints _ gen _
  · next gen hphase =>
    cases hstep
    exact (hs.moveCaller hc fun _ hgen => by rw [hphase]; exact hgen).hints _ _ 0
  · next gen hphase =>
    cases hstep
    exact hs.moveCaller hc fun _ hgen => by rw [hphase]; exact hgen
  · next gen spin hphase =>
    cases hstep
    refine hs.moveCaller hc fun _ hgen => ?_
    rw [hphase]
    split at hgen <;> exact hgen
  · next gen hphase => exact hs.waitRegion hc hphase hstep
  · cases hstep

theorem Inv.stepHelper (hs : s.Inv) {panics : Bool} (hh : s.helpers[h]? = some helper)
    (hstep : s.stepHelper h helper panics = some s') : s'.Inv := by
  rw [PoolInner.stepHelper] at hstep
  split at hstep
  · next spin hphase =>
    cases hstep
    refine hs.moveHelper hh (by rw [hphase]; rfl) ?_
    split
    · split <;> rfl
    · rfl
  · next spin hphase =>
    cases hstep
    refine hs.moveHelper hh (by rw [hphase]; rfl) ?_
    split <;> rfl
  · next hphase => exact hs.takeRegion hh hphase hstep
  · next gen desc hphase =>
    cases hstep
    exact hs.runRegion hh hphase
  · next gen desc panicked hphase =>
    cases hstep
    exact hs.checkIn hh hphase
  · cases hstep

theorem step_inv {a : Action} (hs : s.Inv) (hstep : s.step a = some s') : s'.Inv := by
  cases a with
  | caller c =>
    obtain ⟨caller, hc, hstep⟩ := Option.bind_eq_some_iff.mp hstep
    exact hs.stepCaller hc hstep
  | helper h panics =>
    obtain ⟨helper, hh, hstep⟩ := Option.bind_eq_some_iff.mp hstep
    exact hs.stepHelper hh hstep
  | shutdown =>
    simp only [step, stepShutdown] at hstep
    split at hstep
    · cases hstep
      exact hs.hints true _ _
    · cases hstep

/-- The states of all interleavings. -/
abbrev Reached (start s : PoolInner) : Prop := Reachable step (fun _ _ => True) start s

theorem reached_inv {helpers callers : Nat} (h : Reached (start helpers callers) s) : s.Inv :=
  h.invariant (start_inv helpers callers) fun _ _ _ hinv _ hstep => step_inv hinv hstep

/-- The live region's caller has not returned from it. -/
theorem Inv.not_returned (hs : s.Inv) {d : RegionDesc} (hd : s.handoff.desc = some d) :
    ¬ s.returned d := by
  rintro ⟨caller, hc, hlt⟩
  obtain ⟨owner, ho, hregion⟩ := hs.owner d hd
  rw [ho] at hc
  cases hc
  omega

/-- A region that every caller has left is behind all helpers. -/
theorem Inv.ran_of_returned (hs : s.Inv) {d : RegionDesc} (hd : d ∈ s.published)
    (hret : s.returned d) (hmem : helper ∈ s.helpers) : d ∈ helper.ran := by
  have hok := hs.helpers helper hmem
  obtain ⟨i, hi⟩ := List.mem_iff_getElem?.mp hd
  have hlt := (List.getElem?_eq_some_iff.mp hi).1
  have hgeneration := hs.generation
  have hbefore : i < helper.seen := by
    rcases hok.seen with heq | ⟨hbusy, hlate⟩
    · omega
    · by_contra hge
      have hlast : i = s.published.length - 1 := by omega
      rw [hs.busy] at hbusy
      obtain ⟨live, hlive⟩ := Option.isSome_iff_exists.mp hbusy
      have hend := hs.live live hlive
      rw [List.getLast?_eq_getElem?, ← hlast, hi] at hend
      cases hend
      exact hs.not_returned hlive hret
  rw [hok.ran]
  refine List.mem_iff_getElem?.mpr ⟨i, ?_⟩
  rw [List.getElem?_take_of_lt (by omega)]
  exact hi

/-- A helper has run a part of the published regions, in their order and each
once, and all that their callers have left; one region at most has a caller
that has not returned from it; and this is the region that a helper between its
descriptor and its check-in is in. -/
theorem lending_barrier {helpers callers : Nat} (h : Reached (start helpers callers) s) :
    (∀ helper ∈ s.helpers, helper.ran <+: s.published ∧ helper.ran.Nodup ∧
      ∀ d ∈ s.published, s.returned d → d ∈ helper.ran) ∧
    (∀ d ∈ s.published, ∀ d' ∈ s.published, ¬ s.returned d → ¬ s.returned d' → d = d') ∧
    (∀ helper ∈ s.helpers, ∀ gen d, helper.phase.region? = some (gen, d) →
      d ∈ s.published ∧ ¬ s.returned d) := by
  have hs := reached_inv h
  refine ⟨?_, ?_, ?_⟩
  · intro helper hmem
    have hran := (hs.helpers helper hmem).ran
    refine ⟨?_, ?_, fun d hd hret => hs.ran_of_returned hd hret hmem⟩
    · rw [hran]
      exact List.take_prefix _ _
    · rw [hran]
      exact hs.nodup.sublist (List.take_sublist _ _)
  · intro d hd d' hd' hlive hlive'
    have hdesc := (hs.reaped d hd).resolve_left hlive
    have hdesc' := (hs.reaped d' hd').resolve_left hlive'
    rw [hdesc] at hdesc'
    exact Option.some.inj hdesc'
  · intro helper hmem gen d hregion
    have hdesc := ((hs.helpers helper hmem).reading gen d hregion).2.2.1
    exact ⟨List.mem_of_getLast? (hs.live d hdesc), hs.not_returned hdesc⟩

/-- Caller 0 runs a region, then caller 1 publishes one. -/
def twoCallersSteps : List Action :=
  [.caller 0, .helper 0 false, .caller 0, .helper 0 false, .caller 0, .caller 0, .helper 0 false,
    .helper 0 false, .caller 0, .helper 0 false, .caller 0, .caller 1, .helper 0 false, .caller 1,
    .helper 0 false, .helper 0 false]

/-- The helper is in the region of caller 1. -/
def twoCallers : PoolInner where
  handoff := ⟨some ⟨1, 0⟩, 2, 0, false, true⟩
  shutdown := false
  pubGeneration := 2
  doneHint := 1
  callers := [⟨.idle, [false]⟩, ⟨.resetting 2, []⟩]
  helpers := [⟨1, .running 2 ⟨1, 0⟩, [⟨0, 0⟩]⟩]
  published := [⟨0, 0⟩, ⟨1, 0⟩]

theorem twoCallers_reached : Reached (start 1 2) twoCallers :=
  reachable_of_run (fun _ _ => trivial) .start
    (show run step (start 1 2) twoCallersSteps = _ by decide)

theorem lending_barrier_twoCallers : ¬ twoCallers.returned ⟨1, 0⟩ :=
  ((lending_barrier twoCallers_reached).2.2 _ (List.mem_singleton.mpr rfl) 2 ⟨1, 0⟩ rfl).2

end PoolInner

end Lending

end Sxla
