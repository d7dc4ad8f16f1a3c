import Sxla.Supertensor.Enumerator

/-!
# The concurrent search

Workers stream records to one merger through a channel each. A channel is a
reliable FIFO whose producer publishes in batches: what it has sent is
`pending` until it publishes, and `ready` until the merger takes it. One step
is one action of one party between two accesses to what they share. A load of
the anchor may see any word published so far.

Each lane also keeps its history: what its worker has sent, what the merger
has inserted of it, and whether the worker has published since the merger
last looked at the channel.
-/

namespace Sxla

def CHANNEL_CAP : Nat := 4096

/-- Half the capacity at most. -/
def BATCH_THRESHOLD : Nat := 32

def DRAIN_BATCH : Nat := 32

structure Lane where
  worker : Worker
  ready : List FrontierPoint
  pending : List FrontierPoint
  sent : List FrontierPoint
  received : List FrontierPoint
  late : Bool
deriving DecidableEq, Repr

namespace Lane

def start (cfg : SearchConfig) (w : Nat) : Lane := ⟨.start cfg w, [], [], [], [], false⟩

/-- The producer's `flush`. -/
def publish (lane : Lane) : Lane :=
  if lane.pending = [] then lane
  else { lane with ready := lane.ready ++ lane.pending, pending := [], late := true }

def send (lane : Lane) (p : FrontierPoint) : Lane :=
  let lane := { lane with pending := lane.pending ++ [p], sent := lane.sent ++ [p] }
  if lane.pending.length ≥ BATCH_THRESHOLD then lane.publish else lane

/-- A full channel keeps the worker waiting. -/
def put (lane : Lane) : Worker × Option FrontierPoint → Option Lane
  | (worker, none) => some { lane with worker }
  | (worker, some p) =>
    if lane.ready.length + lane.pending.length < CHANNEL_CAP then
      some ({ lane with worker }.send p)
    else
      none

def enter (lane : Lane) (phase : WorkerPhase) : Lane :=
  { lane with worker := { lane.worker with phase } }

/-- The worker's next action; `word` is what a load of the anchor returns. -/
def step (cfg : SearchConfig) (word : Option Nat) (lane : Lane) : Option Lane :=
  match lane.worker.phase with
  | .looping => lane.put (lane.worker.pop cfg)
  | .polling ops => do lane.put (lane.worker.poll cfg ops (← word))
  | .flushing => some (lane.publish.enter .marking)
  | .marking => some (lane.enter .ended)
  | .ended => none

/-- `try_recv_batch`. -/
def take (lane : Lane) : List FrontierPoint := lane.ready.take DRAIN_BATCH

def taken (lane : Lane) : Lane :=
  { lane with
    ready := lane.ready.drop DRAIN_BATCH, received := lane.received ++ lane.take, late := false }

end Lane

/-- Where the merger stands: at a channel of the current pass, at the load of
`done`, or at the store of the anchor. -/
inductive MergerPhase where
  | draining (k : Nat)
  | checking
  | publishing
  | ended
deriving DecidableEq, Repr

structure Merger where
  frontier : ParetoFrontier
  got : Nat
  phase : MergerPhase
deriving DecidableEq, Repr

structure Search where
  lanes : List Lane
  done : Nat
  /-- The anchor words stored so far, the latest first. -/
  published : List Nat
  merger : Merger
deriving DecidableEq, Repr

inductive SearchAction where
  /-- A worker's action; a load of the anchor sees the word at `seen`. -/
  | worker (w seen : Nat)
  | merger
deriving DecidableEq, Repr

structure SearchOutcome where
  frontier : ParetoFrontier
  evaluated : Nat
  pruned : Nat
  budgetExhausted : Bool
  capEvicted : Bool

namespace Search

def start (cfg : SearchConfig) : Search where
  lanes := (List.range cfg.nWorkers).map (.start cfg)
  done := 0
  published := [ANCHOR_NONE]
  merger := ⟨.new, 0, .draining 0⟩

def setLane (s : Search) (w : Nat) (lane : Lane) : Search :=
  { s with lanes := s.lanes.set w lane }

def setPhase (s : Search) (phase : MergerPhase) : Search :=
  { s with merger := { s.merger with phase } }

def marks (lane : Lane) : Bool := lane.worker.phase = .marking

/-- The merger's look at one channel. -/
def drain (s : Search) (k : Nat) : Search :=
  match s.lanes[k]? with
  | none => s.setPhase .checking
  | some lane =>
    if lane.ready = [] then
      (s.setLane k lane.taken).setPhase (.draining (k + 1))
    else
      { s.setLane k lane.taken with
        merger :=
          { frontier := lane.take.foldl .insert s.merger.frontier
            got := s.merger.got + lane.take.length
            phase := .draining k } }

def check (cfg : SearchConfig) (s : Search) : Search :=
  s.setPhase (if s.merger.got = 0 ∧ s.done = cfg.nWorkers then .ended else .publishing)

/-- The store of the anchor and the start of the next pass. -/
def publishAnchor (s : Search) : Search where
  lanes := s.lanes
  done := s.done
  published := match s.merger.frontier.best with
    | some best => packAnchor best.cost :: s.published
    | none => s.published
  merger := { s.merger with got := 0, phase := .draining 0 }

def step (cfg : SearchConfig) (s : Search) : SearchAction → Option Search
  | .worker w seen => do
    let lane ← s.lanes[w]?
    let lane' ← lane.step cfg s.published[seen]?
    let s' := s.setLane w lane'
    return if marks lane then { s' with done := s.done + 1 } else s'
  | .merger =>
    match s.merger.phase with
    | .draining k => some (s.drain k)
    | .checking => some (s.check cfg)
    | .publishing => some s.publishAnchor
    | .ended => none

def ended (s : Search) : Bool := s.merger.phase = .ended

def budgetExhausted (s : Search) : Bool := s.lanes.any (·.worker.budgetExhausted)

def outcome (s : Search) : SearchOutcome where
  frontier := s.merger.frontier
  evaluated := (s.lanes.map (·.worker.evaluated)).sum
  pruned := (s.lanes.map (·.worker.pruned)).sum
  budgetExhausted := s.budgetExhausted
  capEvicted := s.merger.frontier.evicted

/-- The states of the runs whose every action meets a condition on the state
before it. -/
inductive Run (cfg : SearchConfig) (meets : Search → SearchAction → Prop) : Search → Prop
  | start : Run cfg meets (start cfg)
  | step {s t : Search} {action : SearchAction} : Run cfg meets s → meets s action →
      s.step cfg action = some t → Run cfg meets t

/-- Every interleaving. -/
abbrev Reachable (cfg : SearchConfig) (s : Search) : Prop := Run cfg (fun _ _ => True) s

variable {cfg : SearchConfig} {s t : Search}

def exec (cfg : SearchConfig) (s : Search) (actions : List SearchAction) : Option Search :=
  actions.foldlM (step cfg) s

/-- Execution that stops short of a step without the condition. -/
def execMeeting (cfg : SearchConfig) (meets : Search → SearchAction → Prop) [DecidableRel meets]
    (s : Search) (actions : List SearchAction) : Option Search :=
  actions.foldlM (fun s action => if meets s action then s.step cfg action else none) s

theorem run_exec {actions : List SearchAction} (h : Reachable cfg s)
    (he : s.exec cfg actions = some t) : Reachable cfg t := by
  induction actions generalizing s with
  | nil =>
    cases he
    exact h
  | cons action actions ih =>
    simp only [exec, List.foldlM_cons, Option.bind_eq_bind, Option.bind_eq_some_iff] at he
    obtain ⟨u, hu, he⟩ := he
    exact ih (.step h trivial hu) he

theorem run_execMeeting {meets : Search → SearchAction → Prop} [DecidableRel meets]
    {actions : List SearchAction} (h : Run cfg meets s)
    (he : s.execMeeting cfg meets actions = some t) : Run cfg meets t := by
  induction actions generalizing s with
  | nil =>
    cases he
    exact h
  | cons action actions ih =>
    simp only [execMeeting, List.foldlM_cons, Option.bind_eq_bind, Option.bind_eq_some_iff] at he
    obtain ⟨u, hu, he⟩ := he
    split at hu
    · next hm => exact ih (.step h hm hu) he
    · cases hu

theorem Run.mono {meets meets' : Search → SearchAction → Prop} (h : Run cfg meets s)
    (hm : ∀ u action, meets u action → meets' u action) : Run cfg meets' s := by
  induction h with
  | start => exact .start
  | step _ hstep hs ih => exact .step ih (hm _ _ hstep) hs

/-- A step is a worker's action in its lane or one of the merger's. -/
theorem step_cases {action : SearchAction}
    (h : s.step cfg action = some t) :
    (∃ w seen lane lane', action = .worker w seen ∧ s.lanes[w]? = some lane ∧
      lane.step cfg s.published[seen]? = some lane' ∧
      t = { s.setLane w lane' with done := s.done + if marks lane then 1 else 0 }) ∨
    action = .merger ∧
      ((∃ k, s.merger.phase = .draining k ∧ t = s.drain k) ∨
        (s.merger.phase = .checking ∧ t = s.check cfg) ∨
        (s.merger.phase = .publishing ∧ t = s.publishAnchor)) := by
  cases action with
  | worker w seen =>
    simp only [step, Option.bind_eq_bind, Option.bind_eq_some_iff, Option.pure_def,
      Option.some.injEq] at h
    obtain ⟨lane, hl, lane', hs, rfl⟩ := h
    refine .inl ⟨w, seen, lane, lane', rfl, hl, hs, ?_⟩
    cases marks lane <;> rfl
  | merger =>
    refine .inr ⟨rfl, ?_⟩
    simp only [step] at h
    split at h
    · next k hk =>
      cases h
      exact .inl ⟨k, hk, rfl⟩
    · next hk =>
      cases h
      exact .inr (.inl ⟨hk, rfl⟩)
    · next hk =>
      cases h
      exact .inr (.inr ⟨hk, rfl⟩)
    · cases h

end Search

end Sxla
