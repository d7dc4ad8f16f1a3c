import Sxla.Anvil.Telemetry
import Sxla.Levels.Canonicalize

/-!
# The pass manager

A pipeline runs its passes in manifest order from an accepted arena, and the
first error ends it. A snapshot is its arena here. What a pass does with the
worker context is its own matter, so results about a whole run say which
passes they are about: `Pass.Quiet` ones do not touch the context, and
`Pass.Oblivious` ones do not look at it either.
-/

namespace Sxla

open Telemetry

inductive IrFormPreference where
  | graph
  | structured
  | either
deriving DecidableEq, Repr

inductive HpcClass where
  | hpc0
  | hpc1
deriving DecidableEq, Repr

inductive PassOutput where
  | unchanged
  | changed (ir : IrArena)

inductive PipelineError where
  | passFailed (pass : String)
  | verifyFailed (pass : String) (e : VerifierError)
  | formConversion (pass : String)
deriving DecidableEq, Repr

/-- What ends a pipeline early. -/
inductive Halt where
  | err (e : PipelineError)
  | panic
deriving DecidableEq, Repr

structure WorkerContext where
  workerIndex : Nat
  workers : Nat
  telemetry : TelemetryBus
deriving DecidableEq, Repr

/-- The context behind an event. That the bus may refuse it is ignored. -/
def WorkerContext.emit (ctx : WorkerContext) (kind : TelemetryKind) (passId : UInt16)
    (payload : UInt64) : WorkerContext :=
  { ctx with telemetry := (ctx.telemetry.emit ctx.workerIndex ⟨kind.code, passId, payload⟩).2 }

structure Pass where
  name : String
  version : UInt32
  requiredForm : IrFormPreference
  hpcClass : HpcClass
  passId : UInt16
  run : WorkerContext → IrArena → Except Halt PassOutput × WorkerContext

namespace Pass

/-- Structured consumers get the graph and project it themselves. -/
def formOk (p : Pass) : Bool :=
  match p.requiredForm with
  | .either | .graph => true
  | .structured => true

/-- Verification behind a pass that has changed the arena. -/
def accept (p : Pass) (current : IrArena) : PassOutput → Except Halt IrArena
  | .unchanged => .ok current
  | .changed next =>
    if p.hpcClass = .hpc0 then
      match verify next with
      | .error e => .error (.err (.verifyFailed p.name e))
      | .ok () => .ok next
    else .ok next

/-- One round of the pipeline's loop. -/
def step (p : Pass) (ctx : WorkerContext) (current : IrArena) :
    Except Halt IrArena × WorkerContext :=
  if !p.formOk then (.error (.err (.formConversion p.name)), ctx)
  else
    match p.run (ctx.emit .passStart p.passId 0) current with
    | (.error e, ctx) => (.error e, ctx)
    | (.ok out, ctx) =>
      match p.accept current out with
      | .error e => (.error e, ctx)
      | .ok next => (.ok next, ctx.emit .passEnd p.passId p.version.toUInt64)

end Pass

def runPasses : List Pass → WorkerContext → IrArena → Except Halt IrArena × WorkerContext
  | [], ctx, current => (.ok current, ctx)
  | p :: passes, ctx, current =>
    match p.step ctx current with
    | (.error e, ctx) => (.error e, ctx)
    | (.ok next, ctx) => runPasses passes ctx next

structure PassManager where
  manifest : String
  passes : List Pass

def PassManager.run (pm : PassManager) (ctx : WorkerContext) (ir : IrArena) :
    Except Halt IrArena × WorkerContext :=
  match verify ir with
  | .error e => (.error (.err (.verifyFailed "pipeline-entry" e)), ctx)
  | .ok () => runPasses pm.passes ctx ir

-- ---------------------------------------------------------------------------
-- The passes that have run
-- ---------------------------------------------------------------------------

/-- Every pass of the list has accepted, each from the arena of the one
before. -/
inductive Passed : List Pass → WorkerContext → IrArena → WorkerContext → IrArena → Prop where
  | start {ctx : WorkerContext} {a : IrArena} : Passed [] ctx a ctx a
  | pass {passes : List Pass} {p : Pass} {ctx ctx' ctx'' : WorkerContext} {a b c : IrArena} :
      Passed passes ctx a ctx' b → p.step ctx' b = (.ok c, ctx'') →
        Passed (passes ++ [p]) ctx a ctx'' c

/-- Some pass of the list is the first that does not accept. -/
inductive Stopped : List Pass → WorkerContext → IrArena → Halt → WorkerContext → Prop where
  | intro {done : List Pass} {p : Pass} {rest : List Pass} {ctx ctx' ctx'' : WorkerContext}
      {a b : IrArena} {e : Halt} (passed : Passed done ctx a ctx' b)
      (fails : p.step ctx' b = (.error e, ctx'')) : Stopped (done ++ p :: rest) ctx a e ctx''

variable {p : Pass} {passes done : List Pass} {ctx ctx' ctx'' : WorkerContext}
  {a b c : IrArena} {e : Halt} {out : PassOutput} {pm : PassManager}

theorem Passed.runPasses (h : Passed done ctx a ctx' b) (rest : List Pass) :
    runPasses (done ++ rest) ctx a = Sxla.runPasses rest ctx' b := by
  induction h generalizing rest with
  | start => rfl
  | @pass done p _ _ _ _ _ _ _ hstep ih =>
    rw [List.append_assoc, ih, List.singleton_append, Sxla.runPasses, hstep]

/-- Either all passes accept or one stops the run. -/
theorem runPasses_cases (h : Passed done ctx a ctx' b) :
    (∃ ctx'' c, Passed (done ++ passes) ctx a ctx'' c ∧
      runPasses passes ctx' b = (.ok c, ctx'')) ∨
    ∃ e ctx'', Stopped (done ++ passes) ctx a e ctx'' ∧
      runPasses passes ctx' b = (.error e, ctx'') := by
  induction passes generalizing done ctx' b with
  | nil => exact .inl ⟨ctx', b, by rwa [List.append_nil], rfl⟩
  | cons p passes ih =>
    rw [runPasses]
    cases hstep : p.step ctx' b with
    | mk r ctx'' =>
      cases r with
      | error e =>
        exact .inr ⟨e, ctx'', .intro h hstep, rfl⟩
      | ok c =>
        have hcases := ih (h.pass hstep)
        rw [List.append_assoc, List.singleton_append] at hcases
        exact hcases

theorem Pass.formOk_eq : p.formOk = true := by
  unfold formOk
  cases p.requiredForm <;> rfl

theorem Pass.accept_ok : p.accept a out = .ok b ↔
    out = .unchanged ∧ b = a ∨
      out = .changed b ∧ (p.hpcClass = .hpc0 → verify b = .ok ()) := by
  cases out with
  | unchanged =>
    rw [accept, Except.ok.injEq]
    constructor
    · rintro rfl
      exact .inl ⟨rfl, rfl⟩
    · rintro (⟨-, rfl⟩ | ⟨h, -⟩)
      · rfl
      · cases h
  | changed next =>
    rw [accept]
    by_cases hhpc : p.hpcClass = .hpc0
    · rw [if_pos hhpc]
      cases hv : verify next with
      | error e =>
        constructor
        · intro h
          cases h
        · rintro (⟨h, -⟩ | ⟨h, hb⟩)
          · cases h
          · cases h
            rw [hb hhpc] at hv
            cases hv
      | ok u =>
        rw [Except.ok.injEq]
        constructor
        · rintro rfl
          exact .inr ⟨rfl, fun _ => hv⟩
        · rintro (⟨h, -⟩ | ⟨h, -⟩)
          · cases h
          · exact PassOutput.changed.inj h
    · rw [if_neg hhpc, Except.ok.injEq]
      constructor
      · rintro rfl
        exact .inr ⟨rfl, fun h => absurd h hhpc⟩
      · rintro (⟨h, -⟩ | ⟨h, -⟩)
        · cases h
        · exact PassOutput.changed.inj h

/-- What a round of the loop can end with. -/
theorem Pass.step_ok (h : p.step ctx a = (.ok b, ctx')) :
    ∃ out ctx₁, p.run (ctx.emit .passStart p.passId 0) a = (.ok out, ctx₁) ∧
      p.accept a out = .ok b ∧ ctx' = ctx₁.emit .passEnd p.passId p.version.toUInt64 := by
  rw [step, formOk_eq] at h
  cases hrun : p.run (ctx.emit .passStart p.passId 0) a with
  | mk r ctx₁ =>
    rw [hrun] at h
    cases r with
    | error e => cases h
    | ok out =>
      cases hacc : p.accept a out with
      | error e =>
        simp only [hacc] at h
        cases h
      | ok next =>
        simp only [hacc] at h
        cases h
        exact ⟨out, ctx₁, rfl, hacc, rfl⟩

theorem Pass.step_error (h : p.step ctx a = (.error e, ctx')) :
    p.run (ctx.emit .passStart p.passId 0) a = (.error e, ctx') ∨
      p.hpcClass = .hpc0 ∧ ∃ b e', p.run (ctx.emit .passStart p.passId 0) a =
        (.ok (.changed b), ctx') ∧ verify b = .error e' ∧ e = .err (.verifyFailed p.name e') := by
  rw [step, formOk_eq] at h
  cases hrun : p.run (ctx.emit .passStart p.passId 0) a with
  | mk r ctx₁ =>
    rw [hrun] at h
    cases r with
    | error e =>
      cases h
      exact .inl rfl
    | ok out =>
      cases hacc : p.accept a out with
      | ok next =>
        simp only [hacc] at h
        cases h
      | error e' =>
        simp only [hacc] at h
        cases h
        cases out with
        | unchanged => cases hacc
        | changed b =>
          rw [accept] at hacc
          split at hacc
          · next hhpc =>
            cases hv : verify b with
            | ok u =>
              rw [hv] at hacc
              cases hacc
            | error e'' =>
              rw [hv] at hacc
              exact .inr ⟨hhpc, b, e'', rfl, hv, (Except.error.inj hacc).symm⟩
          · cases hacc

theorem PassManager.run_cases (hv : verify a = .ok ()) :
    (∃ b ctx', pm.run ctx a = (.ok b, ctx') ∧ Passed pm.passes ctx a ctx' b) ∨
      ∃ e ctx', pm.run ctx a = (.error e, ctx') ∧ Stopped pm.passes ctx a e ctx' := by
  rw [run, hv]
  obtain ⟨ctx', b, hpassed, hb⟩ | ⟨e, ctx', hstopped, he⟩ :=
    @runPasses_cases pm.passes [] ctx ctx a a .start
  · exact .inl ⟨b, ctx', hb, hpassed⟩
  · exact .inr ⟨e, ctx', he, hstopped⟩

theorem PassManager.run_eq_ok : pm.run ctx a = (.ok b, ctx') ↔
    verify a = .ok () ∧ Passed pm.passes ctx a ctx' b := by
  constructor
  · intro h
    have hv : verify a = .ok () := by
      cases hv : verify a with
      | error e => simp [run, hv] at h
      | ok u => rfl
    obtain ⟨b', ctx'', hrun, hpassed⟩ | ⟨e, ctx'', hrun, -⟩ := @run_cases ctx a pm hv
    · obtain ⟨hb, rfl⟩ := Prod.mk.inj (hrun.symm.trans h)
      exact ⟨hv, Except.ok.inj hb ▸ hpassed⟩
    · cases hrun.symm.trans h
  · rintro ⟨hv, h⟩
    have hrun := h.runPasses []
    rw [List.append_nil] at hrun
    rw [run, hv]
    exact hrun

/-- What every pass keeps, the pipeline keeps. -/
theorem Passed.keeps {P : IrArena → Prop} (h : Passed passes ctx a ctx' b) (hstart : P a)
    (hpass : ∀ p ∈ passes, ∀ ctx ctx' b c, P b → p.run ctx b = (.ok (.changed c), ctx') →
      (p.hpcClass = .hpc0 → verify c = .ok ()) → P c) : P b := by
  induction h with
  | start => exact hstart
  | @pass passes p ctx ctx' ctx'' a b c _ hstep ih =>
    have hb : P b := ih hstart fun q hq => hpass q (List.mem_append_left _ hq)
    obtain ⟨out, ctx₁, hrun, hacc, -⟩ := Pass.step_ok hstep
    rcases Pass.accept_ok.mp hacc with ⟨-, rfl⟩ | ⟨rfl, hv⟩
    · exact hb
    · exact hpass p (List.mem_append_right _ (List.mem_singleton_self p)) _ _ _ _ hb hrun hv

-- ---------------------------------------------------------------------------
-- The canonicalization pass
-- ---------------------------------------------------------------------------

namespace Pass

/-- The pass leaves the worker context as it is. -/
def Quiet (p : Pass) : Prop := ∀ ctx a, (p.run ctx a).2 = ctx

/-- The pass does the same in every worker context. -/
def Oblivious (p : Pass) : Prop := ∀ ctx ctx' a, (p.run ctx a).1 = (p.run ctx' a).1

end Pass

/-- Folding, value numbering and dead code elimination on a clone, published
when one of them has changed it and it verifies. -/
def canonicalizePass (libm : Libm) (roots : List NodeId) : Pass where
  name := "canonicalize-l0"
  version := 1
  requiredForm := .graph
  hpcClass := .hpc0
  passId := 1
  run ctx ir :=
    match canonicalize libm ir roots with
    | .error _ => (.error (.err (.passFailed "canonicalize-l0")), ctx)
    | .ok c =>
      if c.merged = 0 ∧ c.removed = 0 ∧ c.folded = 0 then (.ok .unchanged, ctx)
      else
        match verify c.arena with
        | .error e => (.error (.err (.verifyFailed "canonicalize-l0" e)), ctx)
        | .ok () => (.ok (.changed c.arena), ctx)

variable {libm : Libm} {roots : List NodeId}

theorem canonicalizePass_quiet : (canonicalizePass libm roots).Quiet := by
  intro ctx a
  unfold canonicalizePass
  dsimp only
  split
  · rfl
  · split
    · rfl
    · split <;> rfl

theorem canonicalizePass_oblivious : (canonicalizePass libm roots).Oblivious := by
  intro ctx ctx' a
  unfold canonicalizePass
  dsimp only
  split
  · rfl
  · split
    · rfl
    · split <;> rfl

def onlyCanonicalize : PassManager :=
  ⟨"sxla-test-pipeline", [canonicalizePass .absent [.pack 0 0 .graph]]⟩

-- ---------------------------------------------------------------------------
-- The contract
-- ---------------------------------------------------------------------------

/-- What has ended a run early. Passes are run on accepted arenas only. -/
inductive Blame (pm : PassManager) (a : IrArena) (e : Halt) : Prop where
  | entry {e' : VerifierError} (rejected : verify a = .error e')
      (named : e = .err (.verifyFailed "pipeline-entry" e'))
  | pass {p : Pass} {ctx ctx' : WorkerContext} {b : IrArena} (mem : p ∈ pm.passes)
      (accepted : verify b = .ok ()) (failed : p.run ctx b = (.error e, ctx'))
  | output {p : Pass} {ctx ctx' : WorkerContext} {b c : IrArena} {e' : VerifierError}
      (mem : p ∈ pm.passes) (accepted : verify b = .ok ())
      (changed : p.run ctx b = (.ok (.changed c), ctx')) (rejected : verify c = .error e')
      (named : e = .err (.verifyFailed p.name e'))

theorem Passed.verified (h : Passed passes ctx a ctx' b) (hv : verify a = .ok ())
    (hhpc : ∀ p ∈ passes, p.hpcClass = .hpc0) : verify b = .ok () :=
  h.keeps hv fun p hp _ _ _ _ _ _ hc => hc (hhpc p hp)

/-- A pipeline of passes that must be verified ends with an accepted arena or
because of one of them or of its entry, which an error names. -/
theorem PassManager.run_contract (hhpc : ∀ p ∈ pm.passes, p.hpcClass = .hpc0) :
    (∃ b ctx', pm.run ctx a = (.ok b, ctx') ∧ verify b = .ok ()) ∨
      ∃ e ctx', pm.run ctx a = (.error e, ctx') ∧ Blame pm a e := by
  cases hv : verify a with
  | error e => exact .inr ⟨_, ctx, by rw [run, hv], .entry hv rfl⟩
  | ok u =>
    obtain ⟨b, ctx', hb, hpassed⟩ | ⟨e, ctx', he, hstopped⟩ := @run_cases ctx a pm hv
    · exact .inl ⟨b, ctx', hb, hpassed.verified hv hhpc⟩
    · refine .inr ⟨e, ctx', he, ?_⟩
      generalize hpasses : pm.passes = passes at hstopped
      obtain @⟨done, p, rest, _, reached, _, _, b, _, hpassed, hfails⟩ := hstopped
      have hmem : p ∈ pm.passes := by
        rw [hpasses]
        exact List.mem_append_right _ List.mem_cons_self
      have hreached : verify b = .ok () :=
        hpassed.verified hv fun p hp => hhpc p (hpasses ▸ List.mem_append_left _ hp)
      obtain hfail | ⟨-, c, e', hout, hc, hname⟩ := Pass.step_error hfails
      · exact .pass hmem hreached hfail
      · exact .output hmem hreached hout hc hname

theorem PassManager.run_contract_twinConsts : ∃ r ctx',
    onlyCanonicalize.run ⟨0, 1, .new 1⟩ twinConsts = (r, ctx') ∧
      ((∃ b, r = .ok b ∧ verify b = .ok ()) ∨ ∃ e, r = .error e ∧ Blame onlyCanonicalize twinConsts e) := by
  have hcontract := @run_contract ⟨0, 1, .new 1⟩ twinConsts onlyCanonicalize fun p hp => by
    obtain rfl := List.mem_singleton.mp hp
    rfl
  obtain ⟨b, ctx', hrun, hv⟩ | ⟨e, ctx', hrun, hblame⟩ := hcontract
  · exact ⟨_, ctx', hrun, .inl ⟨b, rfl, hv⟩⟩
  · exact ⟨_, ctx', hrun, .inr ⟨e, rfl, hblame⟩⟩

-- ---------------------------------------------------------------------------
-- What is reported
-- ---------------------------------------------------------------------------

namespace Pass

def startEvent (p : Pass) : TelemetryEvent := ⟨TelemetryKind.passStart.code, p.passId, 0⟩

def endEvent (p : Pass) : TelemetryEvent :=
  ⟨TelemetryKind.passEnd.code, p.passId, p.version.toUInt64⟩

end Pass

/-- The events of the first `k` passes, and the start of the pass behind them. -/
def trace (passes : List Pass) (k : Nat) : List TelemetryEvent :=
  ((passes.take k).flatMap fun p => [p.startEvent, p.endEvent]) ++
    (passes[k]?.map Pass.startEvent).toList

/-- The context with more events on the bus. -/
def WorkerContext.emitAll (ctx : WorkerContext) (evs : List TelemetryEvent) : WorkerContext :=
  { ctx with telemetry := ctx.telemetry.emitAll ctx.workerIndex evs }

variable {evs evs' : List TelemetryEvent} {ring : List TelemetryEvent}

theorem WorkerContext.emitAll_append :
    ctx.emitAll (evs ++ evs') = (ctx.emitAll evs).emitAll evs' := by
  simp only [emitAll, Telemetry.emitAll_append]

theorem Pass.Quiet.run (h : p.Quiet) {r : Except Halt PassOutput}
    (hr : p.run ctx a = (r, ctx')) : ctx' = ctx := by
  rw [← h ctx a, hr]

theorem Passed.emitted (h : Passed passes ctx a ctx' b) (hquiet : ∀ p ∈ passes, p.Quiet) :
    ctx' = ctx.emitAll (passes.flatMap fun p => [p.startEvent, p.endEvent]) := by
  induction h with
  | start => rfl
  | @pass passes p ctx ctx' ctx'' a b c _ hstep ih =>
    obtain ⟨out, ctx₁, hrun, -, rfl⟩ := Pass.step_ok hstep
    obtain rfl := (hquiet p (List.mem_append_right _ (List.mem_singleton_self p))).run hrun
    have hfirst := ih fun q hq => hquiet q (List.mem_append_left _ hq)
    rw [List.flatMap_append, WorkerContext.emitAll_append, ← hfirst]
    rfl

/-- The bus shows how far the pipeline got. -/
theorem PassManager.run_traced (hquiet : ∀ p ∈ pm.passes, p.Quiet) (hv : verify a = .ok ()) :
    (∃ b, pm.run ctx a = (.ok b, ctx.emitAll (trace pm.passes pm.passes.length))) ∨
      ∃ e k, k < pm.passes.length ∧ pm.run ctx a = (.error e, ctx.emitAll (trace pm.passes k)) := by
  obtain ⟨b, ctx', hb, hpassed⟩ | ⟨e, ctx', he, hstopped⟩ := @run_cases ctx a pm hv
  · refine .inl ⟨b, ?_⟩
    rw [hb, hpassed.emitted hquiet, trace, List.take_length, List.getElem?_eq_none le_rfl]
    simp
  · rw [he]
    clear he
    generalize pm.passes = passes at hquiet hstopped
    obtain @⟨done, p, rest, _, reached, _, _, b, _, hpassed, hfails⟩ := hstopped
    refine .inr ⟨e, done.length, by simp, ?_⟩
    have hp : p.Quiet := hquiet p (by simp)
    have hctx : ctx' = reached.emit .passStart p.passId 0 := by
      obtain hfail | ⟨-, c, e', hout, -⟩ := Pass.step_error hfails
      · exact hp.run hfail
      · exact hp.run hout
    have htrace : trace (done ++ p :: rest) done.length =
        (done.flatMap fun p => [p.startEvent, p.endEvent]) ++ [p.startEvent] := by
      rw [trace, List.take_left, List.getElem?_append_right le_rfl, Nat.sub_self]
      rfl
    rw [hctx, htrace, WorkerContext.emitAll_append,
      ← hpassed.emitted fun p hp => hquiet p (List.mem_append_left _ hp)]
    rfl

/-- The context with the events in its worker's ring, as far as that has room. -/
def WorkerContext.reported (ctx : WorkerContext) (ring evs : List TelemetryEvent) :
    WorkerContext :=
  { ctx with telemetry := {
      rings := ctx.telemetry.rings.set ctx.workerIndex ((ring ++ evs).take TELEMETRY_CAPACITY)
      dropped := ctx.telemetry.dropped +
        .ofNat (ring.length + evs.length - TELEMETRY_CAPACITY) } }

/-- What telemetry does with the events changes nothing about the arena. -/
theorem runPasses_oblivious (h : ∀ p ∈ passes, p.Oblivious) :
    (runPasses passes ctx a).1 = (runPasses passes ctx' a).1 := by
  induction passes generalizing ctx ctx' a with
  | nil => rfl
  | cons p passes ih =>
    have hp : (p.step ctx a).1 = (p.step ctx' a).1 := by
      have hrun := h p List.mem_cons_self (ctx.emit .passStart p.passId 0)
        (ctx'.emit .passStart p.passId 0) a
      unfold Pass.step
      rw [Pass.formOk_eq]
      cases hr : p.run (ctx.emit .passStart p.passId 0) a with
      | mk r ctx₁ =>
        cases hr' : p.run (ctx'.emit .passStart p.passId 0) a with
        | mk r' ctx₁' =>
          rw [hr, hr'] at hrun
          obtain rfl : r = r' := hrun
          cases r with
          | error e => rfl
          | ok out =>
            cases hacc : p.accept a out <;> simp [hacc]
    rw [runPasses, runPasses]
    cases hs : p.step ctx a with
    | mk r ctx₁ =>
      cases hs' : p.step ctx' a with
      | mk r' ctx₁' =>
        rw [hs, hs'] at hp
        obtain rfl : r = r' := hp
        cases r with
        | error e => rfl
        | ok next => exact ih fun q hq => h q (List.mem_cons_of_mem p hq)

end Sxla
