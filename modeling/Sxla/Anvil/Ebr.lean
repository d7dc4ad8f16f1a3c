import Sxla.Library.Transition

/-!
# Epoch-based reclamation

Each thread has one slot. Its plain and release stores wait in a FIFO buffer
and reach memory at any later time; a load sees the thread's own buffer first,
and a read-modify-write needs the buffer to be empty. One step is one access.

Objects are numbered in the order in which they are unlinked. A guard keeps
how many objects had been unlinked when `pin` returned it.
-/

namespace Sxla

open Transition

namespace Ebr

def EBR_RETIRE_THRESHOLD : Nat := 64

def wrappingAdd (a b : Nat) : Nat := (a + b) % 0x10000000000000000

structure Retired where
  object : Nat
  epoch : Nat
deriving DecidableEq, Repr

/-- A store in a buffer: to the thread's slot, or to the counter of retires. -/
inductive Pending where
  | slot (value : Nat)
  | retires (value : Nat)
deriving DecidableEq, Repr

structure Guard where
  epoch : Nat
  since : Nat
deriving DecidableEq, Repr

/-- Where a thread stands, before the access of that name. `retiring` and
`retirePushing` are the push of `retire_box`, `restoring` and
`restorePushing` those of `collect`. -/
inductive Phase where
  | idle
  | pinning (epoch : Nat)
  | stamping (object : Nat)
  | retiring (node : Retired)
  | retirePushing (node : Retired) (head : List Retired)
  | counting
  | loading
  | scanning (g i : Nat)
  | advancing (g : Nat)
  | reading
  | swapping (now : Nat)
  | sweeping (now : Nat) (rest keep : List Retired) (freed : Nat)
  | restoring (keep : List Retired) (freed : Nat)
  | restorePushing (node : Retired) (keep head : List Retired) (freed : Nat)
  | tallying (freed : Nat)
  | resetting
deriving DecidableEq, Repr

/-- `retires` tells whether the thread's `collect` was called by `retire_box`. -/
structure Thread where
  guard : Option Guard
  phase : Phase
  retires : Bool
  buffer : List Pending
deriving DecidableEq, Repr

structure Collector where
  globalEpoch : Nat
  slots : List Nat
  garbage : List Retired
  retiresSinceCollect : Nat
  freedCount : Nat
  threads : List Thread
  unlinked : Nat
  /-- Unlinked and not yet retired. -/
  loose : List Nat
  destroyed : List Nat
deriving DecidableEq, Repr

inductive Action where
  | pin (t : Nat)
  | dropGuard (t : Nat)
  | unlink (t : Nat)
  | retire (t object : Nat)
  | collect (t : Nat)
  /-- The next access of a call; `fails` makes a weak exchange fail. -/
  | run (t : Nat) (fails : Bool)
  /-- The oldest store of the thread reaches memory. -/
  | drain (t : Nat)
deriving DecidableEq, Repr

/-- What a thread sees in its slot, with `value` in memory. -/
def newest (value : Nat) : List Pending → Nat
  | [] => value
  | .slot v :: rest => newest v rest
  | .retires _ :: rest => newest value rest

def Pending.isSlot : Pending → Bool
  | .slot _ => true
  | .retires _ => false

/-- A store to the thread's slot has not reached memory. -/
def Thread.buffered (thread : Thread) : Bool := thread.buffer.any (·.isSlot)

namespace Collector

def start (threads : Nat) : Collector where
  globalEpoch := 0
  slots := List.replicate threads 0
  garbage := []
  retiresSinceCollect := 0
  freedCount := 0
  threads := List.replicate threads ⟨none, .idle, false, []⟩
  unlinked := 0
  loose := []
  destroyed := []

def put (s : Collector) (t : Nat) (thread : Thread) : Collector :=
  { s with threads := s.threads.set t thread }

def enter (s : Collector) (t : Nat) (thread : Thread) (phase : Phase) : Collector :=
  s.put t { thread with phase }

/-- The load of slot `i` in the scan. -/
def scan (s : Collector) (t : Nat) (thread : Thread) (g i : Nat) : Collector :=
  match s.slots[i]? with
  | none => s.enter t thread (.advancing g)
  | some value =>
    let v := if i = t then newest value thread.buffer else value
    if v ≠ 0 ∧ v ≠ wrappingAdd g 1 then s.enter t thread .reading
    else s.enter t thread (.scanning g (i + 1))

/-- `compare_exchange(g, g + 1)` on the epoch. -/
def advance (s : Collector) (t : Nat) (thread : Thread) (g : Nat) : Collector :=
  let s' := s.enter t thread .reading
  if s.globalEpoch = g then { s' with globalEpoch := wrappingAdd g 1 } else s'

/-- A weak exchange of the head of the garbage stack. -/
def push (s : Collector) (t : Nat) (thread : Thread) (node : Retired) (head : List Retired)
    (fails : Bool) (retry : List Retired → Phase) (done : Phase) : Collector :=
  if fails ∨ s.garbage ≠ head then s.enter t thread (retry s.garbage)
  else { s.enter t thread done with garbage := node :: s.garbage }

def count (s : Collector) (t : Nat) (thread : Thread) : Collector :=
  let n := s.retiresSinceCollect + 1
  let thread' :=
    if n ≥ EBR_RETIRE_THRESHOLD then { thread with phase := .loading, retires := true }
    else { thread with phase := .idle }
  { s.put t thread' with retiresSinceCollect := n }

/-- One node of the popped stack. -/
def sweep (s : Collector) (t : Nat) (thread : Thread) (now : Nat) (keep : List Retired)
    (freed : Nat) : List Retired → Collector
  | [] => s.enter t thread (.restoring keep freed)
  | node :: rest =>
    if now ≥ wrappingAdd node.epoch 2 then
      { s.enter t thread (.sweeping now rest keep (freed + 1)) with
        destroyed := s.destroyed ++ [node.object] }
    else s.enter t thread (.sweeping now rest (keep ++ [node]) freed)

/-- The end of `collect`. -/
def finish (s : Collector) (t : Nat) (thread : Thread) (freed : Nat) : Collector :=
  { s.enter t thread (if thread.retires then .resetting else .idle) with
    freedCount := s.freedCount + freed }

/-- The next access of a call. -/
def access (s : Collector) (t : Nat) (thread : Thread) (fails : Bool) : Option Collector :=
  let drained := thread.buffer = []
  match thread.phase with
  | .idle => none
  | .pinning epoch =>
    some (s.put t
      { thread with
        guard := some ⟨epoch, s.unlinked⟩
        phase := .idle
        buffer := thread.buffer ++ [.slot (wrappingAdd epoch 1)] })
  | .stamping object => some (s.enter t thread (.retiring ⟨object, s.globalEpoch⟩))
  | .retiring node => some (s.enter t thread (.retirePushing node s.garbage))
  | .retirePushing node head =>
    if drained then some (s.push t thread node head fails (.retirePushing node) .counting)
    else none
  | .counting => if drained then some (s.count t thread) else none
  | .loading => some (s.enter t thread (.scanning s.globalEpoch 0))
  | .scanning g i => some (s.scan t thread g i)
  | .advancing g => if drained then some (s.advance t thread g) else none
  | .reading => some (s.enter t thread (.swapping s.globalEpoch))
  | .swapping now =>
    if drained then
      some { s.enter t thread (.sweeping now s.garbage [] 0) with garbage := [] }
    else none
  | .sweeping now rest keep freed => some (s.sweep t thread now keep freed rest)
  | .restoring [] freed => some (s.enter t thread (.tallying freed))
  | .restoring (node :: keep) freed =>
    some (s.enter t thread (.restorePushing node keep s.garbage freed))
  | .restorePushing node keep head freed =>
    if drained then
      some (s.push t thread node head fails (.restorePushing node keep · freed)
        (.restoring keep freed))
    else none
  | .tallying freed =>
    if freed = 0 ∨ drained then some (s.finish t thread freed) else none
  | .resetting =>
    some (s.put t
      { thread with phase := .idle, retires := false, buffer := thread.buffer ++ [.retires 0] })

/-- A store of thread `t` in memory. -/
def land (s : Collector) (t : Nat) : Pending → Collector
  | .slot v => { s with slots := s.slots.set t v }
  | .retires v => { s with retiresSinceCollect := v }

def step (s : Collector) : Action → Option Collector
  | .pin t => do
    let thread ← s.threads[t]?
    if thread.phase = .idle ∧ thread.guard = none then
      some (s.enter t thread (.pinning s.globalEpoch))
    else none
  | .dropGuard t => do
    let thread ← s.threads[t]?
    if thread.phase = .idle ∧ thread.guard.isSome then
      some (s.put t { thread with guard := none, buffer := thread.buffer ++ [.slot 0] })
    else none
  | .unlink t => do
    let thread ← s.threads[t]?
    if thread.phase = .idle ∧ thread.buffer = [] then
      some { s with unlinked := s.unlinked + 1, loose := s.loose ++ [s.unlinked] }
    else none
  | .retire t object => do
    let thread ← s.threads[t]?
    if thread.phase = .idle ∧ object ∈ s.loose then
      some { s.enter t thread (.stamping object) with loose := s.loose.erase object }
    else none
  | .collect t => do
    let thread ← s.threads[t]?
    if thread.phase = .idle then some (s.enter t thread .loading) else none
  | .run t fails => do s.access t (← s.threads[t]?) fails
  | .drain t => do
    let thread ← s.threads[t]?
    match thread.buffer with
    | [] => none
    | store :: buffer => some ((s.put t { thread with buffer }).land t store)

/-- No object is destroyed while there is a guard that `pin` returned before
the object was unlinked. -/
def Safe (s : Collector) : Prop :=
  ∀ o ∈ s.destroyed, ∀ thread ∈ s.threads, ∀ guard, thread.guard = some guard → o < guard.since

/-- An object has been unlinked under the guard of thread `i`, whose store is
still in the thread's buffer. -/
def hidden (s : Collector) (i : Nat) : Bool :=
  s.threads[i]?.any fun thread => thread.buffered && thread.guard.any (·.since < s.unlinked)

/-- A scan loads the slot of another thread whose guard is hidden. -/
def overlooks (s : Collector) : Action → Bool
  | .run t _ =>
    s.threads[t]?.any fun thread =>
      match thread.phase with
      | .scanning _ i => i ≠ t && s.hidden i
      | _ => false
  | _ => false

/-- The step overlooks no guard, and the epoch is not about to wrap. -/
def Meets (s : Collector) (a : Action) : Prop :=
  s.globalEpoch + 2 < 0x10000000000000000 ∧ s.overlooks a = false

instance (s : Collector) (a : Action) : Decidable (s.Meets a) :=
  inferInstanceAs (Decidable (_ ∧ _))

end Collector

-- ---------------------------------------------------------------------------
-- What a thread has loaded and holds
-- ---------------------------------------------------------------------------

/-- An epoch that the thread has loaded. -/
def Phase.loaded : Phase → Option Nat
  | .pinning e | .scanning e _ | .advancing e | .swapping e | .sweeping e _ _ _ => some e
  | _ => none

/-- The epoch of a scan that has passed slot `r`. -/
def Phase.scanned (r : Nat) : Phase → Option Nat
  | .scanning g i => if r < i then some g else none
  | .advancing g => some g
  | _ => none

/-- The retired objects that are not on the stack. -/
def Phase.nodes : Phase → List Retired
  | .retiring node | .retirePushing node _ => [node]
  | .sweeping _ rest keep _ => rest ++ keep
  | .restoring keep _ => keep
  | .restorePushing node keep _ _ => node :: keep
  | _ => []

theorem Phase.loaded_of_scanned {phase : Phase} {r g : Nat} (h : phase.scanned r = some g) :
    phase.loaded = some g := by
  cases phase with
  | scanning e i =>
    rw [scanned] at h
    split at h
    · exact h
    · cases h
  | advancing e => exact h
  | _ => cases h

theorem newest_append (v w : Nat) (buffer : List Pending) :
    newest v (buffer ++ [Pending.slot w]) = w := by
  induction buffer generalizing v with
  | nil => rfl
  | cons store buffer ih =>
    cases store with
    | slot u => exact ih u
    | retires _ => exact ih v

theorem newest_append_retires (v w : Nat) (buffer : List Pending) :
    newest v (buffer ++ [Pending.retires w]) = newest v buffer := by
  induction buffer generalizing v with
  | nil => rfl
  | cons store buffer ih =>
    cases store with
    | slot u => exact ih u
    | retires _ => exact ih v

/-- Without a store to the slot a thread sees what is in memory. -/
theorem newest_of_not_slot (v : Nat) {buffer : List Pending}
    (h : buffer.any (·.isSlot) = false) : newest v buffer = v := by
  induction buffer with
  | nil => rfl
  | cons store buffer ih =>
    rw [List.any_cons, Bool.or_eq_false_iff] at h
    cases store with
    | slot w => cases h.1
    | retires _ => exact ih h.2

namespace Collector

/-- A retired object that has not been destroyed. -/
def Holds (s : Collector) (node : Retired) : Prop :=
  node ∈ s.garbage ∨ ∃ thread ∈ s.threads, node ∈ thread.phase.nodes

/-- An unlinked object that has no stamp yet. -/
def Awaits (s : Collector) (object : Nat) : Prop :=
  object ∈ s.loose ∨ ∃ thread ∈ s.threads, thread.phase = .stamping object

-- ---------------------------------------------------------------------------
-- The invariant
-- ---------------------------------------------------------------------------

/-- An epoch that the global one passes by one at most while the guard of
thread `t` lives: no scan that has passed its slot has a later one, and no
object that was unlinked under the guard has an earlier stamp. -/
structure Bound (s : Collector) (t : Nat) (guard : Guard) (b : Nat) : Prop where
  pinned : guard.epoch ≤ b
  le : b ≤ s.globalEpoch
  ge : s.globalEpoch ≤ b + 1
  scans : ∀ thread ∈ s.threads, ∀ g, thread.phase.scanned t = some g → g ≤ b
  stamps : ∀ node, s.Holds node → guard.since ≤ node.object → b ≤ node.epoch

structure Inv (s : Collector) : Prop where
  slots : s.slots.length = s.threads.length
  own : ∀ (t : Nat) (thread : Thread) (guard : Guard) (value : Nat), s.threads[t]? = some thread →
    thread.guard = some guard → s.slots[t]? = some value →
    newest value thread.buffer = guard.epoch + 1
  guards : ∀ thread ∈ s.threads, ∀ guard, thread.guard = some guard →
    guard.epoch ≤ s.globalEpoch ∧ guard.since ≤ s.unlinked
  loaded : ∀ thread ∈ s.threads, ∀ e, thread.phase.loaded = some e → e ≤ s.globalEpoch
  nodes : ∀ node, s.Holds node → node.object < s.unlinked ∧ node.epoch ≤ s.globalEpoch
  awaits : ∀ o, s.Awaits o → o < s.unlinked
  destroyed : ∀ o ∈ s.destroyed, o < s.unlinked
  bound : ∀ (t : Nat) (thread : Thread) (guard : Guard), s.threads[t]? = some thread →
    thread.guard = some guard → (thread.buffered = false ∨ guard.since < s.unlinked) →
    ∃ b, s.Bound t guard b
  safe : s.Safe

/-- A step of thread `t` that leaves its guard, the slots and the epoch as
they are. -/
structure Frame (s s' : Collector) (t : Nat) (thread new : Thread) : Prop where
  threads : s'.threads = s.threads.set t new
  globalEpoch : s'.globalEpoch = s.globalEpoch
  slots : s'.slots = s.slots
  unlinked : s'.unlinked = s.unlinked
  guard : new.guard = thread.guard
  newest : ∀ v, newest v new.buffer = newest v thread.buffer
  buffered : new.buffered = thread.buffered

/-- A phase that a thread may enter. -/
structure Enters (s : Collector) (phase : Phase) : Prop where
  loaded : ∀ e, phase.loaded = some e → e ≤ s.globalEpoch
  scanned : ∀ (r : Nat) (other : Thread) (guard : Guard) (b g : Nat), s.threads[r]? = some other →
    other.guard = some guard → (other.buffered = false ∨ guard.since < s.unlinked) →
    s.Bound r guard b → phase.scanned r = some g → g ≤ b
  own : ∀ node ∈ phase.nodes,
    s.Holds node ∨ (node.object < s.unlinked ∧ node.epoch = s.globalEpoch)
  object : ∀ o, phase = .stamping o → s.Awaits o

/-- What becomes of the stack, the unlinked objects and the destroyed ones. -/
structure Moves (s s' : Collector) : Prop where
  garbage : ∀ node ∈ s'.garbage, s.Holds node
  loose : ∀ o ∈ s'.loose, o ∈ s.loose
  destroyed : ∀ o ∈ s'.destroyed, o ∈ s.destroyed ∨ (o < s.unlinked ∧
    ∀ other ∈ s.threads, ∀ guard, other.guard = some guard → o < guard.since)

variable {s s' : Collector} {t : Nat} {thread new : Thread} {phase : Phase}

theorem Frame.refl : Frame s (s.put t { thread with phase }) t thread { thread with phase } :=
  ⟨rfl, rfl, rfl, rfl, rfl, fun _ => rfl, rfl⟩

/-- A phase in which a thread has loaded nothing and holds nothing. -/
theorem Enters.blank (hloaded : phase.loaded = none) (hscanned : ∀ r, phase.scanned r = none)
    (hnodes : phase.nodes = []) (hobject : ∀ o, phase ≠ .stamping o) : s.Enters phase := by
  refine ⟨?_, ?_, ?_, fun o ho => absurd ho (hobject o)⟩
  · intro e he
    rw [hloaded] at he
    cases he
  · intro r _ _ b g _ _ _ _ hg
    rw [hscanned r] at hg
    cases hg
  · intro node hnode
    rw [hnodes] at hnode
    cases hnode

theorem Moves.kept (hgarbage : s'.garbage = s.garbage) (hloose : s'.loose = s.loose)
    (hdestroyed : s'.destroyed = s.destroyed) : s.Moves s' :=
  ⟨fun _ h => .inl (hgarbage ▸ h), fun _ h => hloose ▸ h, fun _ h => .inl (hdestroyed ▸ h)⟩

theorem Frame.holds (hf : Frame s s' t thread new) (he : s.Enters new.phase) (hm : s.Moves s')
    {node : Retired} (h : s'.Holds node) :
    s.Holds node ∨ (node.object < s.unlinked ∧ node.epoch = s.globalEpoch) := by
  rcases h with hgarbage | ⟨other, ho, hnode⟩
  · exact .inl (hm.garbage node hgarbage)
  · rw [hf.threads] at ho
    rcases mem_set_cases ho with rfl | ho
    · exact he.own node hnode
    · exact .inl (.inr ⟨other, ho, hnode⟩)

theorem Frame.inv (hf : Frame s s' t thread new) (henters : s.Enters new.phase) (hm : s.Moves s')
    (hs : s.Inv) (ht : s.threads[t]? = some thread) : s'.Inv := by
  have hmem := List.mem_of_getElem? ht
  have hdestroyed : ∀ o ∈ s'.destroyed, o < s.unlinked ∧
      ∀ other ∈ s.threads, ∀ guard, other.guard = some guard → o < guard.since := by
    intro o ho
    rcases hm.destroyed o ho with hold | hnew
    · exact ⟨hs.destroyed o hold, hs.safe o hold⟩
    · exact hnew
  refine ⟨?_, ?_, ?_, ?_, ?_, ?_, ?_, ?_, ?_⟩
  · rw [hf.slots, hf.threads, List.length_set]
    exact hs.slots
  · intro r other guard value ho hguard hvalue
    rw [hf.threads] at ho
    rw [hf.slots] at hvalue
    rcases getElem?_set_cases ho with ⟨rfl, rfl⟩ | ⟨-, ho⟩
    · rw [hf.newest]
      exact hs.own r thread guard value ht (hf.guard ▸ hguard) hvalue
    · exact hs.own r other guard value ho hguard hvalue
  · intro other ho guard hguard
    rw [hf.globalEpoch, hf.unlinked]
    rw [hf.threads] at ho
    rcases mem_set_cases ho with rfl | ho
    · exact hs.guards thread hmem guard (hf.guard ▸ hguard)
    · exact hs.guards other ho guard hguard
  · intro other ho e he
    rw [hf.globalEpoch]
    rw [hf.threads] at ho
    rcases mem_set_cases ho with rfl | ho
    · exact henters.loaded e he
    · exact hs.loaded other ho e he
  · intro node hnode
    rw [hf.globalEpoch, hf.unlinked]
    rcases hf.holds henters hm hnode with hold | ⟨hobject, hepoch⟩
    · exact hs.nodes node hold
    · exact ⟨hobject, Nat.le_of_eq hepoch⟩
  · rintro o (ho | ⟨other, ho, hobject⟩)
    · rw [hf.unlinked]
      exact hs.awaits o (.inl (hm.loose o ho))
    · rw [hf.unlinked]
      rw [hf.threads] at ho
      rcases mem_set_cases ho with rfl | ho
      · exact hs.awaits o (henters.object o hobject)
      · exact hs.awaits o (.inr ⟨other, ho, hobject⟩)
  · intro o ho
    rw [hf.unlinked]
    exact (hdestroyed o ho).1
  · intro r other guard ho hguard hprotected
    rw [hf.unlinked] at hprotected
    -- the guard and its bound are those of the state before
    have hold : ∃ old, s.threads[r]? = some old ∧ old.guard = some guard ∧
        (old.buffered = false ∨ guard.since < s.unlinked) := by
      rw [hf.threads] at ho
      rcases getElem?_set_cases ho with ⟨rfl, rfl⟩ | ⟨-, ho⟩
      · exact ⟨thread, ht, hf.guard ▸ hguard, hf.buffered ▸ hprotected⟩
      · exact ⟨other, ho, hguard, hprotected⟩
    obtain ⟨old, ho', hguard', hprotected'⟩ := hold
    obtain ⟨b, hb⟩ := hs.bound r old guard ho' hguard' hprotected'
    refine ⟨b, hb.pinned, ?_, ?_, ?_, ?_⟩
    · rw [hf.globalEpoch]
      exact hb.le
    · rw [hf.globalEpoch]
      exact hb.ge
    · intro scanner hscanner g hg
      rw [hf.threads] at hscanner
      rcases mem_set_cases hscanner with rfl | hscanner
      · exact henters.scanned r old guard b g ho' hguard' hprotected' hb hg
      · exact hb.scans scanner hscanner g hg
    · intro node hnode hsince
      rcases hf.holds henters hm hnode with hold | ⟨-, hepoch⟩
      · exact hb.stamps node hold hsince
      · exact hepoch ▸ hb.le
  · intro o ho other hother guard hguard
    rw [hf.threads] at hother
    rcases mem_set_cases hother with rfl | hother
    · exact (hdestroyed o ho).2 thread hmem guard (hf.guard ▸ hguard)
    · exact (hdestroyed o ho).2 other hother guard hguard

-- ---------------------------------------------------------------------------
-- Steps
-- ---------------------------------------------------------------------------

theorem start_inv (n : Nat) : (start n).Inv where
  slots := by rw [start, List.length_replicate, List.length_replicate]
  own := by
    intro t thread guard value ht hguard
    obtain rfl := List.eq_of_mem_replicate (List.mem_of_getElem? ht)
    cases hguard
  guards := by
    intro thread ht guard hguard
    obtain rfl := List.eq_of_mem_replicate ht
    cases hguard
  loaded := by
    intro thread ht e he
    obtain rfl := List.eq_of_mem_replicate ht
    cases he
  nodes := by
    rintro node (hnode | ⟨thread, ht, hnode⟩)
    · cases hnode
    · obtain rfl := List.eq_of_mem_replicate ht
      cases hnode
  awaits := by
    rintro o (ho | ⟨thread, ht, ho⟩)
    · cases ho
    · obtain rfl := List.eq_of_mem_replicate ht
      cases ho
  destroyed := nofun
  bound := by
    intro t thread guard ht hguard
    obtain rfl := List.eq_of_mem_replicate (List.mem_of_getElem? ht)
    cases hguard
  safe := nofun

/-- The current epoch bounds a guard under which nothing has been unlinked. -/
theorem Inv.bound_now (hs : s.Inv) {guard : Guard} (hepoch : guard.epoch ≤ s.globalEpoch)
    (hfresh : guard.since = s.unlinked) : s.Bound t guard s.globalEpoch := by
  refine ⟨hepoch, Nat.le_refl _, Nat.le_succ _, ?_, ?_⟩
  · intro other ho g hg
    exact hs.loaded other ho g (Phase.loaded_of_scanned hg)
  · intro node hnode hsince
    have hlt := (hs.nodes node hnode).1
    omega

theorem wrappingAdd_of_lt {a b : Nat} (h : a + b < 0x10000000000000000) :
    wrappingAdd a b = a + b :=
  Nat.mod_eq_of_lt h

/-- What the thread has scanned stays within the bounds. -/
theorem Bound.scanned_le {r b g : Nat} {guard : Guard} (hb : s.Bound r guard b)
    (ht : s.threads[t]? = some thread) (hg : thread.phase.scanned r = some g) : g ≤ b :=
  hb.scans thread (List.mem_of_getElem? ht) g hg

/-- A scan that passes the slot of a guard has the guard's epoch. -/
theorem Inv.scan (hs : s.Inv) (ht : s.threads[t]? = some thread) {g i : Nat}
    (hphase : thread.phase = .scanning g i) (hwrap : s.globalEpoch + 2 < 0x10000000000000000)
    (hmeets : ∀ other guard, i ≠ t → s.threads[i]? = some other → other.guard = some guard →
      other.buffered → guard.since = s.unlinked) : (s.scan t thread g i).Inv := by
  have hmem := List.mem_of_getElem? ht
  have hg : g ≤ s.globalEpoch := hs.loaded thread hmem g (by rw [hphase]; rfl)
  rw [Collector.scan]
  split
  · next hend =>
    refine Frame.refl.inv ⟨?_, ?_, nofun, nofun⟩ (.kept rfl rfl rfl) hs ht
    · intro e he
      cases he
      exact hg
    · intro r other guard b g' ho _ _ hb hg'
      cases hg'
      refine hb.scanned_le ht ?_
      have hr := (List.getElem?_eq_some_iff.mp ho).1
      have hi := List.getElem?_eq_none_iff.mp hend
      have hlen := hs.slots
      rw [hphase]
      exact if_pos (by omega)
  · next value hvalue =>
    dsimp only
    generalize hseen : (if i = t then newest value thread.buffer else value) = v
    split
    · exact Frame.refl.inv (.blank rfl (fun _ => rfl) rfl nofun) (.kept rfl rfl rfl) hs ht
    · next hpass =>
      refine Frame.refl.inv ⟨?_, ?_, nofun, nofun⟩ (.kept rfl rfl rfl) hs ht
      · intro e he
        cases he
        exact hg
      · intro r other guard b g' ho hguard hprotected hb hg'
        change (if r < i + 1 then some g else none) = some g' at hg'
        split at hg'
        · next hr =>
          cases hg'
          by_cases hri : r = i
          · subst hri
            -- the load has seen the guard's epoch
            have hown := hs.own r other guard value ho hguard hvalue
            have hload : v = guard.epoch + 1 := by
              rw [← hseen]
              split
              · next hrt =>
                subst hrt
                rw [ht] at ho
                cases ho
                exact hown
              · next hrt =>
                rcases hprotected with hmemory | hexposed
                · exact (newest_of_not_slot value hmemory).symm.trans hown
                · cases hbuffered : other.buffered with
                  | false => exact (newest_of_not_slot value hbuffered).symm.trans hown
                  | true =>
                    have hfresh := hmeets other guard hrt ho hguard hbuffered
                    omega
            have hsame : v = wrappingAdd g 1 :=
              Decidable.byContradiction fun hne => hpass ⟨by omega, hne⟩
            rw [wrappingAdd_of_lt (by omega)] at hsame
            have hpinned := hb.pinned
            omega
          · refine hb.scanned_le ht ?_
            rw [hphase]
            exact if_pos (by omega)
        · cases hg'

/-- An advance goes one beyond the bounds at most. -/
theorem Inv.advance (hs : s.Inv) (ht : s.threads[t]? = some thread) {g : Nat}
    (hphase : thread.phase = .advancing g) (hwrap : s.globalEpoch + 2 < 0x10000000000000000) :
    (s.advance t thread g).Inv := by
  have hmem := List.mem_of_getElem? ht
  have hframe : (s.enter t thread .reading).Inv :=
    Frame.refl.inv (.blank rfl (fun _ => rfl) rfl nofun) (.kept rfl rfl rfl) hs ht
  rw [Collector.advance]
  split
  · next heq =>
    rw [wrappingAdd_of_lt (by omega), ← heq]
    refine ⟨hframe.slots, hframe.own, ?_, ?_, ?_, hframe.awaits, hframe.destroyed, ?_,
      hframe.safe⟩
    · intro other ho guard hguard
      exact (hframe.guards other ho guard hguard).imp_left (Nat.le_succ_of_le ·)
    · intro other ho e he
      exact Nat.le_succ_of_le (hframe.loaded other ho e he)
    · intro node hnode
      exact (hframe.nodes node hnode).imp_right (Nat.le_succ_of_le ·)
    · intro r other guard ho hguard hprotected
      obtain ⟨old, ho', hguard', hprotected'⟩ : ∃ old, s.threads[r]? = some old ∧
          old.guard = some guard ∧ (old.buffered = false ∨ guard.since < s.unlinked) := by
        rcases getElem?_set_cases ho with ⟨rfl, rfl⟩ | ⟨-, ho⟩
        · exact ⟨thread, ht, hguard, hprotected⟩
        · exact ⟨other, ho, hguard, hprotected⟩
      obtain ⟨b, hb⟩ := hs.bound r old guard ho' hguard' hprotected'
      have hgb : g ≤ b := hb.scanned_le ht (by rw [hphase]; rfl)
      refine ⟨b, hb.pinned, Nat.le_succ_of_le hb.le, ?_, ?_, ?_⟩
      · show s.globalEpoch + 1 ≤ b + 1
        omega
      · intro scanner hscanner g' hg'
        rcases mem_set_cases hscanner with rfl | hscanner
        · cases hg'
        · exact hb.scans scanner hscanner g' hg'
      · rintro node (hnode | ⟨holder, hholder, hnode⟩)
        · exact hb.stamps node (.inl hnode)
        · rcases mem_set_cases hholder with rfl | hholder
          · cases hnode
          · exact hb.stamps node (.inr ⟨holder, hholder, hnode⟩)
  · exact hframe

/-- A step that changes the thread's phase only, and forgets what it scanned. -/
theorem Inv.enter (hs : s.Inv) (ht : s.threads[t]? = some thread) {phase : Phase}
    (hloaded : ∀ e, phase.loaded = some e → e ≤ s.globalEpoch)
    (hscanned : ∀ r, phase.scanned r = none) (hnodes : ∀ node ∈ phase.nodes, s.Holds node)
    (hobject : ∀ o, phase ≠ .stamping o) : (s.enter t thread phase).Inv := by
  refine Frame.refl.inv ⟨hloaded, ?_, ?_, ?_⟩ (.kept rfl rfl rfl) hs ht
  · intro r _ _ b g _ _ _ _ hg
    rw [hscanned r] at hg
    cases hg
  · exact fun node hnode => .inl (hnodes node hnode)
  · exact fun o ho => absurd ho (hobject o)

/-- The nodes that a thread holds. -/
theorem holds_of_thread (ht : s.threads[t]? = some thread) {node : Retired}
    (hnode : node ∈ thread.phase.nodes) : s.Holds node :=
  .inr ⟨thread, List.mem_of_getElem? ht, hnode⟩

/-- A step after which the threads stand where they stood, with the same
epoch and stack. -/
structure SamePhases (s s' : Collector) : Prop where
  phases : ∀ thread ∈ s'.threads, ∃ old ∈ s.threads, old.phase = thread.phase
  globalEpoch : s'.globalEpoch = s.globalEpoch
  garbage : s'.garbage = s.garbage

theorem phases_set (ht : s.threads[t]? = some thread) (hphase : thread.phase = new.phase) :
    ∀ other ∈ s.threads.set t new, ∃ old ∈ s.threads, old.phase = other.phase := by
  intro other ho
  rcases mem_set_cases ho with rfl | ho
  · exact ⟨thread, List.mem_of_getElem? ht, hphase⟩
  · exact ⟨other, ho, rfl⟩

theorem SamePhases.holds (h : SamePhases s s') {node : Retired} (hnode : s'.Holds node) :
    s.Holds node := by
  rcases hnode with hnode | ⟨thread, ht, hnode⟩
  · exact .inl (h.garbage ▸ hnode)
  · obtain ⟨old, hold, hphase⟩ := h.phases thread ht
    exact .inr ⟨old, hold, hphase ▸ hnode⟩

theorem SamePhases.loaded (h : SamePhases s s') (hs : s.Inv) :
    ∀ thread ∈ s'.threads, ∀ e, thread.phase.loaded = some e → e ≤ s'.globalEpoch := by
  intro thread ht e he
  obtain ⟨old, hold, hphase⟩ := h.phases thread ht
  rw [h.globalEpoch]
  exact hs.loaded old hold e (hphase ▸ he)

theorem SamePhases.bound (h : SamePhases s s') {r b : Nat} {guard : Guard}
    (hb : s.Bound r guard b) : s'.Bound r guard b := by
  refine ⟨hb.pinned, h.globalEpoch ▸ hb.le, h.globalEpoch ▸ hb.ge, ?_, ?_⟩
  · intro thread ht g hg
    obtain ⟨old, hold, hphase⟩ := h.phases thread ht
    exact hb.scans old hold g (hphase ▸ hg)
  · exact fun node hnode => hb.stamps node (h.holds hnode)

/-- A thread gives its guard up, or gets one whose store is in the buffer. -/
theorem Inv.setGuard (hs : s.Inv) (ht : s.threads[t]? = some thread) (guard : Option Guard)
    (value : Nat) (hguard : ∀ q, guard = some q →
      q.epoch ≤ s.globalEpoch ∧ q.since = s.unlinked ∧ value = q.epoch + 1) :
    (s.put t { thread with guard, buffer := thread.buffer ++ [.slot value] }).Inv := by
  have hsame : SamePhases s
      (s.put t { thread with guard, buffer := thread.buffer ++ [.slot value] }) :=
    ⟨phases_set ht rfl, rfl, rfl⟩
  refine ⟨hs.slots.trans List.length_set.symm, ?_, ?_, hsame.loaded hs,
    fun node hnode => hs.nodes node (hsame.holds hnode), ?_, hs.destroyed, ?_, ?_⟩
  · intro r other q v ho hq hv
    rcases getElem?_set_cases ho with ⟨rfl, rfl⟩ | ⟨-, ho⟩
    · show newest v (thread.buffer ++ [Pending.slot value]) = q.epoch + 1
      rw [newest_append]
      exact (hguard q hq).2.2
    · exact hs.own r other q v ho hq hv
  · intro other ho q hq
    rcases mem_set_cases ho with rfl | ho
    · exact ⟨(hguard q hq).1, Nat.le_of_eq (hguard q hq).2.1⟩
    · exact hs.guards other ho q hq
  · rintro o (ho | ⟨other, hother, ho⟩)
    · exact hs.awaits o (.inl ho)
    · obtain ⟨old, hold, hphase⟩ := hsame.phases other hother
      exact hs.awaits o (.inr ⟨old, hold, hphase.trans ho⟩)
  · intro r other q ho hq hprotected
    rcases getElem?_set_cases ho with ⟨rfl, rfl⟩ | ⟨-, ho⟩
    · obtain ⟨hepoch, hsince, -⟩ := hguard q hq
      exact ⟨s.globalEpoch, hsame.bound (hs.bound_now hepoch hsince)⟩
    · exact (hs.bound r other q ho hq hprotected).imp fun _ hb => hsame.bound hb
  · intro o ho other hother q hq
    rcases mem_set_cases hother with rfl | hother
    · rw [(hguard q hq).2.1]
      exact hs.destroyed o ho
    · exact hs.safe o ho other hother q hq

theorem Inv.unlink (hs : s.Inv) :
    ({ s with unlinked := s.unlinked + 1, loose := s.loose ++ [s.unlinked] } : Collector).Inv := by
  let s' : Collector := { s with unlinked := s.unlinked + 1, loose := s.loose ++ [s.unlinked] }
  have hsame : SamePhases s s' := ⟨fun thread ht => ⟨thread, ht, rfl⟩, rfl, rfl⟩
  refine ⟨hs.slots, hs.own, ?_, hs.loaded, ?_, ?_, ?_, ?_, hs.safe⟩
  · exact fun thread ht guard hguard =>
      (hs.guards thread ht guard hguard).imp_right (Nat.le_succ_of_le ·)
  · exact fun node hnode => (hs.nodes node hnode).imp_left (Nat.lt_succ_of_lt ·)
  · rintro o (ho | ho)
    · rcases List.mem_append.mp ho with ho | ho
      · exact Nat.lt_succ_of_lt (hs.awaits o (.inl ho))
      · cases List.mem_singleton.mp ho
        exact Nat.lt_succ_self _
    · exact Nat.lt_succ_of_lt (hs.awaits o (.inr ho))
  · exact fun o ho => Nat.lt_succ_of_lt (hs.destroyed o ho)
  · intro r thread guard ht hguard hprotected
    obtain ⟨hepoch, hsince⟩ := hs.guards thread (List.mem_of_getElem? ht) guard hguard
    by_cases hold : thread.buffered = false ∨ guard.since < s.unlinked
    · exact (hs.bound r thread guard ht hguard hold).imp fun _ hb => hsame.bound hb
    · -- the first object that is unlinked under a guard still in the buffer
      exact ⟨s.globalEpoch, hsame.bound (hs.bound_now hepoch (by omega))⟩

/-- The oldest store of a buffer reaches the slot. -/
theorem Inv.land (hs : s.Inv) (ht : s.threads[t]? = some thread) {store : Pending}
    {buffer : List Pending} (hbuffer : thread.buffer = store :: buffer) :
    ((s.put t { thread with buffer }).land t store).Inv := by
  cases store with
  | retires v =>
    have hmem := List.mem_of_getElem? ht
    have hframe : Frame s ((s.put t { thread with buffer }).land t (.retires v)) t thread
        { thread with buffer } := by
      refine ⟨rfl, rfl, rfl, rfl, rfl, fun v => ?_, ?_⟩
      · rw [hbuffer]
        rfl
      · rw [Thread.buffered, Thread.buffered, hbuffer]
        rfl
    refine hframe.inv ⟨hs.loaded thread hmem, ?_, ?_, ?_⟩ (.kept rfl rfl rfl) hs ht
    · exact fun r _ _ _ _ _ _ _ hb hg => hb.scanned_le ht hg
    · exact fun node hnode => .inl (holds_of_thread ht hnode)
    · exact fun o ho => .inr ⟨thread, hmem, ho⟩
  | slot v =>
    let s' : Collector := (s.put t { thread with buffer }).land t (.slot v)
    have hsame : SamePhases s s' := ⟨phases_set ht rfl, rfl, rfl⟩
    refine ⟨?_, ?_, ?_, hsame.loaded hs, fun node hnode => hs.nodes node (hsame.holds hnode), ?_,
      hs.destroyed, ?_, ?_⟩
    · exact List.length_set.trans (hs.slots.trans List.length_set.symm)
    · intro r other guard value ho hguard hvalue
      rcases getElem?_set_cases ho with ⟨rfl, rfl⟩ | ⟨hr, ho⟩
      · have hlt : r < s.slots.length := by
          have hr := (List.getElem?_eq_some_iff.mp hvalue).1
          exact List.length_set (i := r) ▸ hr
        have hown := hs.own r thread guard _ ht hguard (List.getElem?_eq_getElem hlt)
        have hset := getElem?_set_of (List.getElem?_eq_getElem hlt) v
        cases Option.some.inj (hvalue.symm.trans hset)
        rw [hbuffer] at hown
        exact hown
      · exact hs.own r other guard value ho hguard
          ((List.getElem?_set_ne (Ne.symm hr)).symm.trans hvalue)
    · intro other ho guard hguard
      rcases mem_set_cases ho with rfl | ho
      · exact hs.guards thread (List.mem_of_getElem? ht) guard hguard
      · exact hs.guards other ho guard hguard
    · rintro o (ho | ⟨other, hother, ho⟩)
      · exact hs.awaits o (.inl ho)
      · obtain ⟨old, hold, hphase⟩ := hsame.phases other hother
        exact hs.awaits o (.inr ⟨old, hold, hphase.trans ho⟩)
    · intro r other guard ho hguard hprotected
      rcases getElem?_set_cases ho with ⟨rfl, rfl⟩ | ⟨-, ho⟩
      · obtain ⟨hepoch, hsince⟩ := hs.guards thread (List.mem_of_getElem? ht) guard hguard
        by_cases hexposed : guard.since < s.unlinked
        · exact (hs.bound r thread guard ht hguard (.inr hexposed)).imp fun _ hb =>
            hsame.bound hb
        · -- the guard's own store, or one before it
          exact ⟨s.globalEpoch, hsame.bound (hs.bound_now hepoch (by omega))⟩
      · exact (hs.bound r other guard ho hguard hprotected).imp fun _ hb => hsame.bound hb
    · intro o ho other hother guard hguard
      rcases mem_set_cases hother with rfl | hother
      · exact hs.safe o ho thread (List.mem_of_getElem? ht) guard hguard
      · exact hs.safe o ho other hother guard hguard

/-- A push puts the thread's node on the stack, or tries again. -/
theorem Inv.push (hs : s.Inv) (ht : s.threads[t]? = some thread) {node : Retired}
    {head : List Retired} {fails : Bool} {retry : List Retired → Phase} {done : Phase}
    (hnode : s.Holds node) (hretry : ∀ stack, (retry stack).loaded = none ∧
      (∀ r, (retry stack).scanned r = none) ∧ (∀ n ∈ (retry stack).nodes, s.Holds n) ∧
      ∀ o, retry stack ≠ .stamping o)
    (hdone : done.loaded = none ∧ (∀ r, done.scanned r = none) ∧
      (∀ n ∈ done.nodes, s.Holds n) ∧ ∀ o, done ≠ .stamping o) :
    (s.push t thread node head fails retry done).Inv := by
  rw [Collector.push]
  split
  · obtain ⟨hloaded, hscanned, hnodes, hobject⟩ := hretry s.garbage
    exact hs.enter ht (fun e he => by rw [hloaded] at he; cases he) hscanned hnodes hobject
  · obtain ⟨hloaded, hscanned, hnodes, hobject⟩ := hdone
    have hframe : Frame s { s.enter t thread done with garbage := node :: s.garbage } t thread
        { thread with phase := done } := ⟨rfl, rfl, rfl, rfl, rfl, fun _ => rfl, rfl⟩
    refine hframe.inv ⟨?_, ?_, ?_, ?_⟩ ⟨?_, fun _ h => h, fun _ h => .inl h⟩ hs ht
    · exact fun e he => by rw [hloaded] at he; cases he
    · intro r _ _ b g _ _ _ _ hg
      rw [hscanned r] at hg
      cases hg
    · exact fun n hn => .inl (hnodes n hn)
    · exact fun o ho => absurd ho (hobject o)
    · intro n hn
      rcases List.mem_cons.mp hn with rfl | hn
      · exact hnode
      · exact .inl hn

theorem Inv.count (hs : s.Inv) (ht : s.threads[t]? = some thread) : (s.count t thread).Inv := by
  rw [Collector.count]
  split
  · exact @Frame.inv s _ t thread { thread with phase := .loading, retires := true }
      ⟨rfl, rfl, rfl, rfl, rfl, fun _ => rfl, rfl⟩ (.blank rfl (fun _ => rfl) rfl nofun)
      (.kept rfl rfl rfl) hs ht
  · exact @Frame.inv s _ t thread { thread with phase := .idle }
      ⟨rfl, rfl, rfl, rfl, rfl, fun _ => rfl, rfl⟩ (.blank rfl (fun _ => rfl) rfl nofun)
      (.kept rfl rfl rfl) hs ht

/-- A node is destroyed two epochs after its stamp, which no bound allows
while a guard lives under which the object was unlinked. -/
theorem Inv.sweep (hs : s.Inv) (ht : s.threads[t]? = some thread) {now freed : Nat}
    {rest keep : List Retired} (hphase : thread.phase = .sweeping now rest keep freed)
    (hwrap : s.globalEpoch + 2 < 0x10000000000000000) :
    (s.sweep t thread now keep freed rest).Inv := by
  have hmem := List.mem_of_getElem? ht
  have hnow : now ≤ s.globalEpoch := hs.loaded thread hmem now (by rw [hphase]; rfl)
  have hholds : ∀ node, node ∈ rest ∨ node ∈ keep → s.Holds node := by
    intro node hnode
    refine holds_of_thread ht ?_
    rw [hphase]
    exact List.mem_append.mpr hnode
  cases rest with
  | nil =>
    exact hs.enter ht nofun (fun _ => rfl) (fun node hnode => hholds node (.inr hnode)) nofun
  | cons node rest =>
    rw [Collector.sweep]
    split
    · next hage =>
      have hnode := hholds node (.inl List.mem_cons_self)
      obtain ⟨hobject, hepoch⟩ := hs.nodes node hnode
      rw [wrappingAdd_of_lt (by omega)] at hage
      refine @Frame.inv s _ t thread { thread with phase := .sweeping now rest keep (freed + 1) }
        ⟨rfl, rfl, rfl, rfl, rfl, fun _ => rfl, rfl⟩ ⟨?_, ?_, ?_, nofun⟩
        ⟨fun _ h => .inl h, fun _ h => h, ?_⟩ hs ht
      · intro e he
        cases he
        exact hnow
      · exact fun _ _ _ _ _ _ _ _ _ => nofun
      · intro n hn
        refine .inl (hholds n ?_)
        exact (List.mem_append.mp hn).imp_left (List.mem_cons_of_mem _)
      · intro o ho
        rcases List.mem_append.mp ho with ho | ho
        · exact .inl ho
        · cases List.mem_singleton.mp ho
          refine .inr ⟨hobject, ?_⟩
          intro other hother guard hguard
          obtain ⟨r, hr⟩ := List.mem_iff_getElem?.mp hother
          by_contra hsince
          obtain ⟨b, hb⟩ := hs.bound r other guard hr hguard (.inr (by omega))
          have hstamp := hb.stamps node hnode (Nat.le_of_not_lt hsince)
          have hge := hb.ge
          omega
    · refine hs.enter ht ?_ (fun _ => rfl) ?_ nofun
      · intro e he
        cases he
        exact hnow
      · intro n hn
        refine hholds n ?_
        rcases List.mem_append.mp hn with hn | hn
        · exact .inl (List.mem_cons_of_mem _ hn)
        · rcases List.mem_append.mp hn with hn | hn
          · exact .inr hn
          · cases List.mem_singleton.mp hn
            exact .inl List.mem_cons_self

theorem Inv.access (hs : s.Inv) (ht : s.threads[t]? = some thread) {fails : Bool}
    (hmeets : s.Meets (.run t fails)) (hrun : s.access t thread fails = some s') : s'.Inv := by
  have hmem := List.mem_of_getElem? ht
  have hheld : ∀ {node}, node ∈ thread.phase.nodes → s.Holds node := holds_of_thread ht
  obtain ⟨hwrap, hscan⟩ := hmeets
  rw [Collector.access] at hrun
  dsimp only at hrun
  split at hrun
  · cases hrun
  · next epoch hphase =>
    cases hrun
    have hidle : (s.enter t thread .idle).Inv := hs.enter ht nofun (fun _ => rfl) nofun nofun
    have hset := hidle.setGuard (getElem?_set_of ht _) (some ⟨epoch, s.unlinked⟩)
      (wrappingAdd epoch 1) ?_
    · rw [Collector.put, Collector.enter, Collector.put, List.set_set] at hset
      exact hset
    · intro q hq
      cases hq
      have hepoch : epoch ≤ s.globalEpoch := hs.loaded thread hmem epoch (by rw [hphase]; rfl)
      exact ⟨hepoch, rfl, wrappingAdd_of_lt (by omega)⟩
  · next object hphase =>
    cases hrun
    refine Frame.refl.inv ⟨nofun, fun _ _ _ _ _ _ _ _ _ => nofun, ?_, nofun⟩
      (.kept rfl rfl rfl) hs ht
    intro node hnode
    cases List.mem_singleton.mp hnode
    exact .inr ⟨hs.awaits object (.inr ⟨thread, hmem, hphase⟩), rfl⟩
  · next node hphase =>
    cases hrun
    exact hs.enter ht nofun (fun _ => rfl) (fun n hn => hheld (by rw [hphase]; exact hn)) nofun
  · next node head hphase =>
    split at hrun
    · cases hrun
      have hnode : s.Holds node := hheld (by rw [hphase]; exact List.mem_cons_self)
      refine hs.push ht hnode (fun _ => ⟨rfl, fun _ => rfl, ?_, nofun⟩)
        ⟨rfl, fun _ => rfl, nofun, nofun⟩
      intro n hn
      cases List.mem_singleton.mp hn
      exact hnode
    · cases hrun
  · split at hrun
    · cases hrun
      exact hs.count ht
    · cases hrun
  · cases hrun
    refine hs.enter ht ?_ ?_ nofun nofun
    · intro e he
      cases he
      exact Nat.le_refl _
    · intro r
      show (if r < 0 then some s.globalEpoch else none) = none
      exact if_neg (Nat.not_lt_zero r)
  · next g i hphase =>
    cases hrun
    refine hs.scan ht hphase hwrap ?_
    intro other guard hne ho hguard hbuffered
    have hle := (hs.guards other (List.mem_of_getElem? ho) guard hguard).2
    simp only [overlooks, hidden, ht, hphase, ho, hguard, hbuffered, Option.any_some, hne, ne_eq,
      not_false_eq_true, decide_true, Bool.true_and, decide_eq_false_iff_not] at hscan
    omega
  · next g hphase =>
    split at hrun
    · cases hrun
      exact hs.advance ht hphase hwrap
    · cases hrun
  · cases hrun
    refine hs.enter ht ?_ (fun _ => rfl) nofun nofun
    intro e he
    cases he
    exact Nat.le_refl _
  · next now hphase =>
    split at hrun
    · cases hrun
      refine @Frame.inv s _ t thread { thread with phase := .sweeping now s.garbage [] 0 }
        ⟨rfl, rfl, rfl, rfl, rfl, fun _ => rfl, rfl⟩ ⟨?_, ?_, ?_, nofun⟩
        ⟨nofun, fun _ h => h, fun _ h => .inl h⟩ hs ht
      · intro e he
        cases he
        exact hs.loaded thread hmem now (by rw [hphase]; rfl)
      · exact fun _ _ _ _ _ _ _ _ _ => nofun
      · intro node hnode
        rcases List.mem_append.mp hnode with hnode | hnode
        · exact .inl (.inl hnode)
        · cases hnode
    · cases hrun
  · next now rest keep freed hphase =>
    cases hrun
    exact hs.sweep ht hphase hwrap
  · cases hrun
    exact hs.enter ht nofun (fun _ => rfl) nofun nofun
  · next node keep freed hphase =>
    cases hrun
    exact hs.enter ht nofun (fun _ => rfl) (fun n hn => hheld (by rw [hphase]; exact hn)) nofun
  · next node keep head freed hphase =>
    split at hrun
    · cases hrun
      have hnodes : ∀ n ∈ node :: keep, s.Holds n := fun n hn => hheld (by rw [hphase]; exact hn)
      exact hs.push ht (hnodes node List.mem_cons_self)
        (fun _ => ⟨rfl, fun _ => rfl, hnodes, nofun⟩)
        ⟨rfl, fun _ => rfl, fun n hn => hnodes n (List.mem_cons_of_mem _ hn), nofun⟩
    · cases hrun
  · next freed hphase =>
    split at hrun
    · cases hrun
      rw [Collector.finish]
      split
      · exact @Frame.inv s _ t thread { thread with phase := .resetting }
          ⟨rfl, rfl, rfl, rfl, rfl, fun _ => rfl, rfl⟩ (.blank rfl (fun _ => rfl) rfl nofun)
          (.kept rfl rfl rfl) hs ht
      · exact @Frame.inv s _ t thread { thread with phase := .idle }
          ⟨rfl, rfl, rfl, rfl, rfl, fun _ => rfl, rfl⟩ (.blank rfl (fun _ => rfl) rfl nofun)
          (.kept rfl rfl rfl) hs ht
    · cases hrun
  · cases hrun
    refine @Frame.inv s _ t thread
      { thread with phase := .idle, retires := false, buffer := thread.buffer ++ [.retires 0] }
      ⟨rfl, rfl, rfl, rfl, rfl, fun v => newest_append_retires v 0 _, ?_⟩
      (.blank rfl (fun _ => rfl) rfl nofun) (.kept rfl rfl rfl) hs ht
    rw [Thread.buffered, List.any_append]
    exact Bool.or_false _

theorem step_inv {a : Action} (hs : s.Inv) (hmeets : s.Meets a) (hstep : s.step a = some s') :
    s'.Inv := by
  cases a with
  | pin t =>
    obtain ⟨thread, ht, hstep⟩ := Option.bind_eq_some_iff.mp hstep
    split at hstep
    · cases hstep
      refine hs.enter ht ?_ (fun _ => rfl) nofun nofun
      intro e he
      cases he
      exact Nat.le_refl _
    · cases hstep
  | dropGuard t =>
    obtain ⟨thread, ht, hstep⟩ := Option.bind_eq_some_iff.mp hstep
    split at hstep
    · cases hstep
      exact hs.setGuard ht none 0 nofun
    · cases hstep
  | unlink t =>
    obtain ⟨thread, -, hstep⟩ := Option.bind_eq_some_iff.mp hstep
    split at hstep
    · cases hstep
      exact hs.unlink
    · cases hstep
  | retire t object =>
    obtain ⟨thread, ht, hstep⟩ := Option.bind_eq_some_iff.mp hstep
    split at hstep
    · next hcall =>
      cases hstep
      refine @Frame.inv s _ t thread { thread with phase := .stamping object }
        ⟨rfl, rfl, rfl, rfl, rfl, fun _ => rfl, rfl⟩
        ⟨nofun, fun _ _ _ _ _ _ _ _ _ => nofun, nofun, ?_⟩
        ⟨fun _ h => .inl h, fun o ho => List.mem_of_mem_erase ho, fun _ h => .inl h⟩ hs ht
      intro o ho
      cases ho
      exact .inl hcall.2
    · cases hstep
  | collect t =>
    obtain ⟨thread, ht, hstep⟩ := Option.bind_eq_some_iff.mp hstep
    split at hstep
    · cases hstep
      exact hs.enter ht nofun (fun _ => rfl) nofun nofun
    · cases hstep
  | run t fails =>
    obtain ⟨thread, ht, hstep⟩ := Option.bind_eq_some_iff.mp hstep
    exact hs.access ht hmeets hstep
  | drain t =>
    obtain ⟨thread, ht, hstep⟩ := Option.bind_eq_some_iff.mp hstep
    split at hstep
    · cases hstep
    · next store buffer hbuffer =>
      cases hstep
      exact hs.land ht hbuffer

theorem reached_inv {n : Nat} (h : Reachable step Meets (start n) s) : s.Inv :=
  h.invariant (start_inv n) fun _ _ _ hinv hmeets hstep => step_inv hinv hmeets hstep

/-- In a run whose scans see every guard under which something has been
unlinked, no object is destroyed under such a guard. -/
theorem safe_of_reached {n : Nat} (h : Reachable step Meets (start n) s) : s.Safe :=
  (reached_inv h).safe

/-- Thread 1 unlinks an object under the guard of thread 0, retires it and
collects twice. -/
def unlinkAndCollect (first : List Action) : List Action :=
  first ++ [Action.unlink 1, .retire 1 0] ++ List.replicate 4 (Action.run 1 false) ++
    [Action.collect 1] ++ List.replicate 13 (Action.run 1 false) ++ [Action.collect 1] ++
    List.replicate 8 (Action.run 1 false)

/-- The slot of thread 0 has reached memory: the second advance fails. -/
def held : Collector where
  globalEpoch := 1
  slots := [1, 0]
  garbage := [⟨0, 0⟩]
  retiresSinceCollect := 1
  freedCount := 0
  threads := [⟨some ⟨0, 0⟩, .idle, false, []⟩, ⟨none, .restoring [] 0, false, []⟩]
  unlinked := 1
  loose := []
  destroyed := []

theorem held_reached : Reachable step Meets (start 2) held :=
  reachable_of_runMeeting .start
    (show runMeeting step Meets (start 2)
      (unlinkAndCollect [.pin 0, .run 0 false, .drain 0]) = _ by decide)

theorem safe_of_reached_held : held.Safe := safe_of_reached held_reached

/-- The store of thread 0 is still in its buffer. -/
def lost : Collector where
  globalEpoch := 2
  slots := [0, 0]
  garbage := []
  retiresSinceCollect := 1
  freedCount := 0
  threads := [⟨some ⟨0, 0⟩, .idle, false, [.slot 1]⟩, ⟨none, .sweeping 2 [] [] 1, false, []⟩]
  unlinked := 1
  loose := []
  destroyed := [0]

/-- Two scans pass the slot before the guard's store reaches it. -/
theorem lost_not_safe :
    Reachable step (fun _ _ => True) (start 2) lost ∧ ¬ lost.Safe := by
  constructor
  · exact reachable_of_run (fun _ _ => trivial) .start
      (show run step (start 2) (unlinkAndCollect [.pin 0, .run 0 false]) = _ by decide)
  · intro hsafe
    exact Nat.lt_irrefl 0 (hsafe 0 (List.mem_singleton.mpr rfl) _ List.mem_cons_self ⟨0, 0⟩ rfl)

end Collector

end Ebr

end Sxla
