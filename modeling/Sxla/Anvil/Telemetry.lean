import Sxla.Library.Transition

/-!
# The telemetry bus

One bounded ring for each worker and a counter of dropped events. A push and
a batched pop are single steps here: the rings keep their values and their
order under any interleaving of the two sides (`Anvil/Spsc`).
-/

namespace Sxla

open Transition

namespace Telemetry

inductive TelemetryKind where
  | passStart
  | passEnd
  | fusionDecision
  | egraphRewrite
  | jitCompile
  | jitHit
  | searchPruned
deriving DecidableEq, Repr

namespace TelemetryKind

def code : TelemetryKind → UInt8
  | .passStart => 0
  | .passEnd => 1
  | .fusionDecision => 2
  | .egraphRewrite => 3
  | .jitCompile => 4
  | .jitHit => 5
  | .searchPruned => 6

def fromCode (c : UInt8) : Option TelemetryKind :=
  if c = 0 then some .passStart
  else if c = 1 then some .passEnd
  else if c = 2 then some .fusionDecision
  else if c = 3 then some .egraphRewrite
  else if c = 4 then some .jitCompile
  else if c = 5 then some .jitHit
  else if c = 6 then some .searchPruned
  else none

end TelemetryKind

structure TelemetryEvent where
  kind : UInt8
  passId : UInt16
  payload : UInt64
deriving DecidableEq, Repr

def TELEMETRY_CAPACITY : Nat := 8192

/-- The batch buffer of a drain. -/
def BATCH : Nat := 64

structure TelemetryBus where
  rings : List (List TelemetryEvent)
  dropped : UInt64
deriving DecidableEq, Repr

namespace TelemetryBus

def new (numWorkers : Nat) : TelemetryBus := ⟨List.replicate numWorkers [], 0⟩

def emit (bus : TelemetryBus) (worker : Nat) (ev : TelemetryEvent) : Bool × TelemetryBus :=
  match bus.rings[worker]? with
  | none => (false, { bus with dropped := bus.dropped + 1 })
  | some ring =>
    if ring.length < TELEMETRY_CAPACITY then
      (true, { bus with rings := bus.rings.set worker (ring ++ [ev]) })
    else (false, { bus with dropped := bus.dropped + 1 })

/-- `pop_batch` of a worker's ring into a buffer of `n` places. -/
def popBatch (bus : TelemetryBus) (worker n : Nat) : List TelemetryEvent × TelemetryBus :=
  match bus.rings[worker]? with
  | none => ([], bus)
  | some ring => (ring.take n, { bus with rings := bus.rings.set worker (ring.drop n) })

/-- The loop of `drain`, which a batch that is not full ends. -/
def drainFrom : Nat → TelemetryBus → Nat → List TelemetryEvent → List TelemetryEvent × TelemetryBus
  | 0, bus, _, out => (out, bus)
  | fuel + 1, bus, worker, out =>
    let (batch, bus) := bus.popBatch worker BATCH
    if batch.length < BATCH then (out ++ batch, bus)
    else drainFrom fuel bus worker (out ++ batch)

/-- Every full batch shortens the ring, so this fuel is enough. -/
def drain (bus : TelemetryBus) (worker : Nat) : List TelemetryEvent × TelemetryBus :=
  drainFrom ((bus.rings.getD worker []).length + 1) bus worker []

/-- The bus behind a run of emits of one worker. -/
def emitAll (bus : TelemetryBus) (worker : Nat) (evs : List TelemetryEvent) : TelemetryBus :=
  evs.foldl (fun bus ev => (bus.emit worker ev).2) bus

end TelemetryBus

open TelemetryBus

variable {bus : TelemetryBus} {worker w n fuel : Nat} {ev : TelemetryEvent}
  {ring out : List TelemetryEvent}

theorem TelemetryKind.fromCode_code (k : TelemetryKind) : fromCode k.code = some k := by
  cases k <;> rfl

-- ---------------------------------------------------------------------------
-- Draining alone
-- ---------------------------------------------------------------------------

theorem drainFrom_eq (h : bus.rings[worker]? = some ring) (hf : ring.length < fuel) :
    drainFrom fuel bus worker out =
      (out ++ ring, { bus with rings := bus.rings.set worker [] }) := by
  induction fuel generalizing bus ring out with
  | zero => omega
  | succ fuel ih =>
    have hlt := (List.getElem?_eq_some_iff.mp h).1
    simp only [drainFrom, popBatch, h, List.length_take]
    split
    · next hshort =>
      have hle : ring.length ≤ BATCH := by omega
      rw [List.take_of_length_le hle, List.drop_of_length_le hle]
    · next hfull =>
      have hmin : BATCH ≤ ring.length := by omega
      have hpos : 0 < BATCH := by decide
      have hrest : (ring.drop BATCH).length < fuel := by
        rw [List.length_drop]
        omega
      rw [ih (List.getElem?_set_self hlt) hrest, List.append_assoc, List.take_append_drop,
        List.set_set]

/-- A drain that nobody disturbs returns what the ring holds and empties it. -/
theorem drain_eq (h : bus.rings[worker]? = some ring) :
    bus.drain worker = (ring, { bus with rings := bus.rings.set worker [] }) := by
  rw [drain, List.getD_eq_getElem?_getD, h, Option.getD_some,
    drainFrom_eq h (Nat.lt_succ_self _), List.nil_append]

-- ---------------------------------------------------------------------------
-- Emitting alone
-- ---------------------------------------------------------------------------

theorem emitAll_append {evs evs' : List TelemetryEvent} :
    bus.emitAll worker (evs ++ evs') = (bus.emitAll worker evs).emitAll worker evs' :=
  List.foldl_append

theorem emitAll_full (h : bus.rings[worker]? = some ring) (hfull : TELEMETRY_CAPACITY ≤ ring.length)
    {evs : List TelemetryEvent} :
    bus.emitAll worker evs = { bus with dropped := bus.dropped + .ofNat evs.length } := by
  induction evs generalizing bus with
  | nil => simp [emitAll]
  | cons ev evs ih =>
    have hemit : (bus.emit worker ev).2 = { bus with dropped := bus.dropped + 1 } := by
      rw [emit, h]
      simp only [if_neg hfull.not_gt]
    have hrest := @ih { bus with dropped := bus.dropped + 1 } h
    rw [emitAll, List.foldl_cons, hemit, ← emitAll, hrest, List.length_cons, UInt64.ofNat_add,
      UInt64.add_assoc, UInt64.add_comm 1]
    rfl

/-- The ring takes what it has room for and the counter the rest. -/
theorem emitAll_eq (h : bus.rings[worker]? = some ring) (hlen : ring.length ≤ TELEMETRY_CAPACITY)
    {evs : List TelemetryEvent} :
    bus.emitAll worker evs = {
      rings := bus.rings.set worker ((ring ++ evs).take TELEMETRY_CAPACITY)
      dropped := bus.dropped + .ofNat (ring.length + evs.length - TELEMETRY_CAPACITY) } := by
  induction evs generalizing bus ring with
  | nil =>
    obtain ⟨hlt, hget⟩ := List.getElem?_eq_some_iff.mp h
    rw [List.append_nil, List.take_of_length_le hlen, List.length_nil, Nat.add_zero,
      Nat.sub_eq_zero_of_le hlen, ← hget, List.set_getElem_self]
    simp [emitAll]
  | cons ev evs ih =>
    have hlt := (List.getElem?_eq_some_iff.mp h).1
    by_cases hroom : ring.length < TELEMETRY_CAPACITY
    · have hemit : (bus.emit worker ev).2 =
          { bus with rings := bus.rings.set worker (ring ++ [ev]) } := by
        rw [emit, h]
        simp only [if_pos hroom]
      have hlen' : (ring ++ [ev]).length ≤ TELEMETRY_CAPACITY := by
        rw [List.length_append, List.length_singleton]
        exact hroom
      have hrest := @ih { bus with rings := bus.rings.set worker (ring ++ [ev]) } (ring ++ [ev])
        (List.getElem?_set_self hlt) hlen'
      rw [emitAll, List.foldl_cons, hemit, ← emitAll, hrest, List.append_assoc, List.set_set,
        List.length_append, List.length_singleton, List.length_cons, Nat.add_assoc,
        Nat.add_comm 1]
      rfl
    · have hfull : TELEMETRY_CAPACITY = ring.length := by omega
      have hcount : ring.length + (ev :: evs).length - TELEMETRY_CAPACITY = (ev :: evs).length := by
        omega
      rw [emitAll_full h hfull.le, hcount, List.take_left' hfull.symm]
      obtain ⟨hlt, hget⟩ := List.getElem?_eq_some_iff.mp h
      rw [← hget, List.set_getElem_self]

-- ---------------------------------------------------------------------------
-- Workers and the drainer
-- ---------------------------------------------------------------------------

/-- The bus with what has happened on it: every emit with its answer, and
every batch, each with its worker. -/
structure Session where
  bus : TelemetryBus
  emits : List (Nat × TelemetryEvent × Bool)
  batches : List (Nat × List TelemetryEvent)
deriving Repr

inductive Action where
  | emit (worker : Nat) (ev : TelemetryEvent)
  | popBatch (worker n : Nat)
deriving DecidableEq, Repr

namespace Session

def new (workers : Nat) : Session := ⟨.new workers, [], []⟩

def step (s : Session) : Action → Option Session
  | .emit worker ev =>
    let (taken, bus) := s.bus.emit worker ev
    some { s with bus, emits := s.emits ++ [(worker, ev, taken)] }
  | .popBatch worker n =>
    let (batch, bus) := s.bus.popBatch worker n
    some { s with bus, batches := s.batches ++ [(worker, batch)] }

/-- The events of a worker that the bus has taken, in the order of its emits. -/
def accepted (s : Session) (worker : Nat) : List TelemetryEvent :=
  s.emits.filterMap fun e => if e.1 = worker ∧ e.2.2 = true then some e.2.1 else none

/-- What the drainer has of a worker, in the order of its batches. -/
def drained (s : Session) (worker : Nat) : List TelemetryEvent :=
  s.batches.flatMap fun e => if e.1 = worker then e.2 else []

def refused (s : Session) : Nat := s.emits.countP fun e => !e.2.2

/-- Every event is accounted for. -/
structure Ledger (workers : Nat) (s : Session) : Prop where
  rings : s.bus.rings.length = workers
  bounded : ∀ ring ∈ s.bus.rings, ring.length ≤ TELEMETRY_CAPACITY
  kept : ∀ (worker : Nat) (ring : List TelemetryEvent), s.bus.rings[worker]? = some ring →
    s.accepted worker = s.drained worker ++ ring
  strangers : ∀ worker, workers ≤ worker → s.accepted worker = [] ∧ s.drained worker = []
  counted : s.bus.dropped = .ofNat s.refused

variable {s s' : Session} {workers : Nat}

theorem Ledger.start : Ledger workers (.new workers) where
  rings := List.length_replicate
  bounded ring h := by
    rw [List.eq_of_mem_replicate h]
    exact Nat.zero_le _
  kept worker ring h := by
    rw [List.eq_of_mem_replicate (List.mem_of_getElem? h)]
    rfl
  strangers worker _ := ⟨rfl, rfl⟩
  counted := rfl

theorem accepted_emit {taken : Bool} {b : TelemetryBus} :
    accepted { s with bus := b, emits := s.emits ++ [(w, ev, taken)] } worker =
      s.accepted worker ++ if w = worker ∧ taken = true then [ev] else [] := by
  simp only [accepted, List.filterMap_append, List.filterMap_cons, List.filterMap_nil]
  by_cases h : w = worker ∧ taken = true
  · rw [if_pos h, if_pos h]
  · rw [if_neg h, if_neg h]

theorem refused_emit {taken : Bool} {b : TelemetryBus} :
    refused { s with bus := b, emits := s.emits ++ [(w, ev, taken)] } =
      s.refused + if taken then 0 else 1 := by
  simp only [refused, List.countP_append]
  cases taken <;> rfl

theorem drained_batch {batch : List TelemetryEvent} {b : TelemetryBus} :
    drained { s with bus := b, batches := s.batches ++ [(w, batch)] } worker =
      s.drained worker ++ if w = worker then batch else [] := by
  simp only [drained, List.flatMap_append, List.flatMap_cons, List.flatMap_nil, List.append_nil]

theorem dropped_succ (h : bus.dropped = .ofNat n) : bus.dropped + 1 = .ofNat (n + 1) := by
  rw [h, UInt64.ofNat_add]
  rfl

/-- An event that is not taken leaves the rings and raises the counter. -/
theorem Ledger.refuse (h : Ledger workers s) :
    Ledger workers { s with
      bus := { s.bus with dropped := s.bus.dropped + 1 }
      emits := s.emits ++ [(w, ev, false)] } where
  rings := h.rings
  bounded := h.bounded
  kept worker ring hring := by
    rw [accepted_emit, if_neg (by simp), List.append_nil]
    exact h.kept worker ring hring
  strangers worker hw := by
    rw [accepted_emit, if_neg (by simp), List.append_nil]
    exact h.strangers worker hw
  counted := by
    rw [refused_emit]
    exact dropped_succ h.counted

theorem Ledger.take (h : Ledger workers s) (hring : s.bus.rings[w]? = some ring)
    (hlen : ring.length < TELEMETRY_CAPACITY) :
    Ledger workers { s with
      bus := { s.bus with rings := s.bus.rings.set w (ring ++ [ev]) }
      emits := s.emits ++ [(w, ev, true)] } where
  rings := by
    rw [List.length_set]
    exact h.rings
  bounded ring' hmem := by
    rcases List.mem_or_eq_of_mem_set hmem with hmem | rfl
    · exact h.bounded ring' hmem
    · rw [List.length_append, List.length_singleton]
      exact hlen
  kept worker ring' hring' := by
    rw [accepted_emit]
    by_cases hw : w = worker
    · subst hw
      rw [List.getElem?_set_self (List.getElem?_eq_some_iff.mp hring).1] at hring'
      obtain rfl := Option.some.inj hring'
      rw [if_pos ⟨rfl, rfl⟩, h.kept w ring hring, List.append_assoc]
      rfl
    · rw [List.getElem?_set_ne hw] at hring'
      rw [if_neg (by simp [hw]), List.append_nil]
      exact h.kept worker ring' hring'
  strangers worker hw := by
    have hlt := (List.getElem?_eq_some_iff.mp hring).1
    rw [h.rings] at hlt
    rw [accepted_emit, if_neg (by omega), List.append_nil]
    exact h.strangers worker hw
  counted := by
    rw [refused_emit]
    exact h.counted

theorem Ledger.batch (h : Ledger workers s) (hring : s.bus.rings[w]? = some ring) :
    Ledger workers { s with
      bus := { s.bus with rings := s.bus.rings.set w (ring.drop n) }
      batches := s.batches ++ [(w, ring.take n)] } where
  rings := by
    rw [List.length_set]
    exact h.rings
  bounded ring' hmem := by
    rcases List.mem_or_eq_of_mem_set hmem with hmem | rfl
    · exact h.bounded ring' hmem
    · refine le_trans ?_ (h.bounded ring (List.mem_of_getElem? hring))
      rw [List.length_drop]
      exact Nat.sub_le _ _
  kept worker ring' hring' := by
    rw [drained_batch]
    by_cases hw : w = worker
    · subst hw
      rw [List.getElem?_set_self (List.getElem?_eq_some_iff.mp hring).1] at hring'
      obtain rfl := Option.some.inj hring'
      rw [if_pos rfl, List.append_assoc, List.take_append_drop]
      exact h.kept w ring hring
    · rw [List.getElem?_set_ne hw] at hring'
      rw [if_neg hw, List.append_nil]
      exact h.kept worker ring' hring'
  strangers worker hw := by
    have hlt := (List.getElem?_eq_some_iff.mp hring).1
    rw [h.rings] at hlt
    rw [drained_batch, if_neg (by omega), List.append_nil]
    exact h.strangers worker hw
  counted := h.counted

/-- A batch of a worker that has no ring is empty. -/
theorem Ledger.stranger (h : Ledger workers s) :
    Ledger workers { s with batches := s.batches ++ [(w, [])] } where
  rings := h.rings
  bounded := h.bounded
  kept worker ring hring := by
    rw [drained_batch (b := s.bus), ite_self, List.append_nil]
    exact h.kept worker ring hring
  strangers worker hw := by
    rw [drained_batch (b := s.bus), ite_self, List.append_nil]
    exact h.strangers worker hw
  counted := h.counted

theorem Ledger.step {act : Action} (h : Ledger workers s) (hs : s.step act = some s') :
    Ledger workers s' := by
  cases act with
  | emit w ev =>
    obtain rfl := Option.some.inj hs
    split
    · exact h.refuse
    · next ring hring =>
      split
      · next hlen => exact h.take hring hlen
      · exact h.refuse
  | popBatch w n =>
    obtain rfl := Option.some.inj hs
    split
    · exact h.stranger
    · next ring hring => exact h.batch hring

/-- Whatever the order of emits and batches, each event that the bus has taken
is drained once, in its worker's order, or waits in the worker's ring; the
others are counted, up to the counter's width. -/
theorem ledger_of_reachable
    (h : Reachable Session.step (fun _ _ => True) (.new workers) s) : Ledger workers s :=
  h.invariant .start fun _ _ _ hs _ hstep => hs.step hstep

theorem ledger_of_reachable_refused : ∃ s,
    Reachable Session.step (fun _ _ => True) (.new 1) s ∧ s.refused = 1 ∧ Ledger 1 s := by
  have hrun : Reachable Session.step (fun _ _ => True) (.new 1)
      ⟨⟨[[⟨0, 7, 1⟩]], 1⟩, [(0, ⟨0, 7, 1⟩, true), (3, ⟨1, 7, 0⟩, false)], []⟩ :=
    .step (a := .emit 3 ⟨1, 7, 0⟩) (.step (a := .emit 0 ⟨0, 7, 1⟩) .start trivial rfl) trivial rfl
  exact ⟨_, hrun, rfl, ledger_of_reachable hrun⟩

end Session

end Telemetry

end Sxla
