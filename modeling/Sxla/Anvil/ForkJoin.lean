import Sxla.Anvil.Partition
import Sxla.Library.Transition

/-!
# Fork/join regions

The workers of a region each loop over their own deque, then over those of the
others, until the counter of pending jobs is seen at 0. A deque operation is
one step: a push may be refused, a steal may find its deque busy. The job of a
worker runs between two such steps.

Each job in a deque has a number of its own, and the region keeps the history
of the jobs that were spawned, begun and ended.
-/

namespace Sxla

open Transition

namespace ForkJoin

/-- What a job still does: it returns, it panics, or it spawns a child and
goes on by what `spawn` returned. -/
inductive Job where
  | done
  | panics
  | spawn (child accepted refused : Job)
deriving DecidableEq, Repr

structure Task where
  id : Nat
  job : Job
deriving DecidableEq, Repr

/-- Where a worker stands: before a load of `pending`, a deque operation or an
update of `pending`. -/
inductive Phase where
  | checking
  | popping
  | stealing (k : Nat)
  | resting
  | running (task : Task) (rest : Job)
  | pushing (task : Task) (child accepted refused : Job)
  | refunding (task : Task) (rest : Job)
  | returned
deriving DecidableEq, Repr

structure Worker where
  phase : Phase
  sawPanic : Bool
deriving DecidableEq, Repr

structure Region where
  pending : Int
  deques : List (List Task)
  workers : List Worker
  spawned : List Task
  begun : List Task
  ended : List Task
deriving DecidableEq, Repr

/-- A step of worker `w`; where it is at a deque, `granted` tells whether a
push is accepted and whether a pop or steal finds the deque not busy. -/
structure Action where
  w : Nat
  granted : Bool
deriving DecidableEq, Repr

namespace Region

/-- The root job is on the deque of worker 0, with its credit. -/
def start (root : Job) (numWorkers : Nat) : Except Fault Region := do
  Partition.checkWorkerCount numWorkers
  return {
    pending := 1
    deques := (List.replicate numWorkers []).set 0 [⟨0, root⟩]
    workers := List.replicate numWorkers ⟨.checking, false⟩
    spawned := [⟨0, root⟩]
    begun := []
    ended := [] }

/-- Worker `w` goes on at `phase`. -/
def move (s : Region) (w : Nat) (worker : Worker) (phase : Phase) : Region :=
  { s with workers := s.workers.set w { worker with phase } }

/-- A load of `pending` that ends the loop at 0. -/
def look (s : Region) (w : Nat) (worker : Worker) (otherwise : Phase) : Region :=
  s.move w worker (if s.pending = 0 then .returned else otherwise)

/-- Worker `w` has a job from deque `d`, where `left` stays. -/
def take (s : Region) (w : Nat) (worker : Worker) (d : Nat) (task : Task) (left : List Task) :
    Region :=
  { s.move w worker (.running task task.job) with
    deques := s.deques.set d left
    begun := s.begun ++ [task] }

/-- The next victim, or the end of the round. -/
def afterEmpty (s : Region) (k : Nat) : Phase :=
  if k < s.deques.length then .stealing k else .resting

def pop (s : Region) (w : Nat) (worker : Worker) (granted : Bool) : Option Region := do
  let own ← s.deques[w]?
  if !granted then return s.move w worker .checking
  match own.getLast? with
  | some task => return s.take w worker w task own.dropLast
  | none => return s.move w worker (s.afterEmpty 1)

def steal (s : Region) (w k : Nat) (worker : Worker) (granted : Bool) : Option Region := do
  let victim := (w + k) % s.deques.length
  let deque ← s.deques[victim]?
  if !granted then return s.move w worker .checking
  match deque with
  | task :: left => return s.take w worker victim task left
  | [] => return s.move w worker (s.afterEmpty (k + 1))

/-- `pending.fetch_add(1)`, before the push of the child. -/
def credit (s : Region) (w : Nat) (worker : Worker) (task : Task) (child accepted refused : Job) :
    Region :=
  { s.move w worker (.pushing task child accepted refused) with pending := s.pending + 1 }

/-- The push of a child on the worker's own deque. -/
def push (s : Region) (w : Nat) (worker : Worker) (task : Task) (child accepted refused : Job)
    (granted : Bool) : Option Region := do
  let own ← s.deques[w]?
  if !granted then return s.move w worker (.refunding task refused)
  let spawned : Task := ⟨s.spawned.length, child⟩
  return { s.move w worker (.running task accepted) with
    deques := s.deques.set w (own ++ [spawned])
    spawned := s.spawned ++ [spawned] }

/-- `pending.fetch_sub(1)`, after a refused push. -/
def refund (s : Region) (w : Nat) (worker : Worker) (task : Task) (rest : Job) : Region :=
  { s.move w worker (.running task rest) with pending := s.pending - 1 }

/-- `pending.fetch_sub(1)`, after a job that returned or panicked. -/
def finish (s : Region) (w : Nat) (worker : Worker) (task : Task) (panicked : Bool) : Region :=
  { s.move w { worker with sawPanic := worker.sawPanic || panicked } .checking with
    pending := s.pending - 1
    ended := s.ended ++ [task] }

def step (s : Region) (a : Action) : Option Region := do
  let worker ← s.workers[a.w]?
  match worker.phase with
  | .checking => return s.look a.w worker .popping
  | .popping => s.pop a.w worker a.granted
  | .stealing k => s.steal a.w k worker a.granted
  | .resting => return s.look a.w worker .checking
  | .running task (.spawn child accepted refused) =>
    return s.credit a.w worker task child accepted refused
  | .running task .done => return s.finish a.w worker task false
  | .running task .panics => return s.finish a.w worker task true
  | .pushing task child accepted refused => s.push a.w worker task child accepted refused a.granted
  | .refunding task rest => return s.refund a.w worker task rest
  | .returned => none

/-- All workers have returned. -/
def joined (s : Region) : Bool := s.workers.all (·.phase = .returned)

/-- What the region returns. -/
def result (s : Region) : Except Fault Unit :=
  if s.workers.any (·.sawPanic) then .error (.error (.pool .jobPanicked)) else .ok ()

end Region

/-- The job a worker holds between its pop or steal and its decrement. -/
def Phase.held : Phase → List Task
  | .running task _ | .pushing task _ _ _ | .refunding task _ => [task]
  | _ => []

/-- The children between the increment for them and their push or the
decrement after its refusal. -/
def Phase.spawning : Phase → Nat
  | .pushing _ _ _ _ | .refunding _ _ => 1
  | _ => 0

namespace Region

def queued (s : Region) : List Task := s.deques.flatten

def held (s : Region) : List Task := s.workers.flatMap (·.phase.held)

def spawning (s : Region) : Nat := (s.workers.map (·.phase.spawning)).sum

-- ---------------------------------------------------------------------------
-- The credits
-- ---------------------------------------------------------------------------

structure Inv (s : Region) : Prop where
  counted : s.pending = s.queued.length + s.held.length + s.spawning
  numbered : s.spawned.map Task.id = List.range s.spawned.length
  popped : (s.queued ++ s.begun).Perm s.spawned
  finished : (s.held ++ s.ended).Perm s.begun
  quiet : ∀ worker ∈ s.workers, worker.phase = .returned → s.pending = 0
  staffed : s.workers ≠ []

variable {s s' : Region} {w d : Nat} {worker : Worker} {task : Task}

theorem start_inv {root : Job} {n : Nat} (h : start root n = .ok s) : s.Inv := by
  simp only [start, Partition.checkWorkerCount] at h
  split at h
  · cases h
  split at h
  · cases h
  next hn _ =>
  cases h
  obtain ⟨m, rfl⟩ := Nat.exists_eq_succ_of_ne_zero hn
  refine ⟨?_, rfl, ?_, ?_, ?_, List.cons_ne_nil _ _⟩
  · simp [queued, held, spawning, List.replicate_succ, Phase.held, Phase.spawning]
  · simp [queued, List.replicate_succ]
  · simp [held, Phase.held]
  · intro worker hw hr
    rw [List.eq_of_mem_replicate hw] at hr
    cases hr

theorem perm_held (hw : s.workers[w]? = some worker) (new : Worker) :
    (worker.phase.held ++ (s.workers.set w new).flatMap (·.phase.held)).Perm
      (new.phase.held ++ s.held) :=
  perm_flatMap_set (·.phase.held) hw new

theorem sum_spawning (hw : s.workers[w]? = some worker) (new : Worker) :
    ((s.workers.set w new).map (·.phase.spawning)).sum + worker.phase.spawning =
      s.spawning + new.phase.spawning :=
  sum_map_set (·.phase.spawning) hw new

theorem length_held (hw : s.workers[w]? = some worker) (new : Worker) :
    worker.phase.held.length + ((s.workers.set w new).flatMap (·.phase.held)).length =
      new.phase.held.length + s.held.length := by
  have h := (perm_held hw new).length_eq
  rwa [List.length_append, List.length_append] at h

theorem Inv.staffed_set (h : s.Inv) {new : Worker} : s.workers.set w new ≠ [] :=
  mt (List.set_eq_nil_iff _ _).mp h.staffed

/-- A worker that holds a job has its credit. -/
theorem Inv.busy (h : s.Inv) (hw : s.workers[w]? = some worker) (hheld : worker.phase.held ≠ []) :
    s.pending ≠ 0 := by
  have hpos := List.length_pos_iff.mpr hheld
  have hcounted := h.counted
  have hlen : worker.phase.held.length + _ = 0 + s.held.length :=
    length_held hw ⟨.checking, false⟩
  omega

/-- While a job is held no worker has returned, and none does by this step. -/
theorem Inv.quiet_of_busy (h : s.Inv) (hw : s.workers[w]? = some worker)
    (hheld : worker.phase.held ≠ []) (new : Worker) (hnew : new.phase ≠ .returned) {pending : Int} :
    ∀ other ∈ s.workers.set w new, other.phase = .returned → pending = 0 := by
  intro other ho hr
  rcases mem_set_cases ho with rfl | ho
  · exact absurd hr hnew
  · exact absurd (h.quiet other ho hr) (h.busy hw hheld)

/-- A worker without a job goes on without one. -/
theorem Inv.move (h : s.Inv) (hw : s.workers[w]? = some worker) {phase : Phase}
    (hheld : worker.phase.held = phase.held) (hspawning : worker.phase.spawning = phase.spawning)
    (hquiet : phase = .returned → s.pending = 0) : (s.move w worker phase).Inv := by
  have hperm : ((s.move w worker phase).held).Perm s.held := by
    have hset := perm_held hw { worker with phase }
    rw [hheld] at hset
    exact (List.perm_append_left_iff _).mp hset
  have hsum : (s.move w worker phase).spawning = s.spawning := by
    have hset := sum_spawning hw { worker with phase }
    rw [hspawning] at hset
    exact Nat.add_right_cancel hset
  refine ⟨?_, h.numbered, h.popped, (hperm.append_right _).trans h.finished, ?_, h.staffed_set⟩
  · rw [hsum, hperm.length_eq]
    exact h.counted
  · intro other ho hr
    rcases mem_set_cases ho with rfl | ho
    · exact hquiet hr
    · exact h.quiet other ho hr

theorem Inv.look (h : s.Inv) (hw : s.workers[w]? = some worker) {phase : Phase}
    (hheld : worker.phase.held = []) (hspawning : worker.phase.spawning = 0)
    (hphase : phase.held = []) (hchild : phase.spawning = 0) (hreturned : phase ≠ .returned) :
    (s.look w worker phase).Inv := by
  rw [Region.look]
  split
  · next hzero => exact h.move hw hheld hspawning fun _ => hzero
  · exact h.move hw (hheld.trans hphase.symm) (hspawning.trans hchild.symm)
      fun hr => absurd hr hreturned

theorem Inv.take (h : s.Inv) (hw : s.workers[w]? = some worker) (hheld : worker.phase.held = [])
    (hspawning : worker.phase.spawning = 0) {deque left : List Task} (hd : s.deques[d]? = some deque)
    (hleft : deque.Perm (task :: left)) : (s.take w worker d task left).Inv := by
  have hqueued : s.queued.Perm (task :: (s.take w worker d task left).queued) := by
    have hset := perm_flatten_set hd left
    have hfirst := (hleft.append_right _).symm.trans hset
    rw [List.cons_append] at hfirst
    refine ((List.perm_append_left_iff left).mp ?_).symm
    exact List.perm_middle.trans hfirst
  have hheld' : ((s.take w worker d task left).held).Perm (task :: s.held) := by
    have hset := perm_held hw { worker with phase := .running task task.job }
    rw [hheld] at hset
    exact hset
  have hsum : (s.take w worker d task left).spawning = s.spawning := by
    have hset := sum_spawning hw { worker with phase := .running task task.job }
    rw [hspawning] at hset
    exact hset
  refine ⟨?_, h.numbered, ?_, ?_, ?_, h.staffed_set⟩
  · have hlen := hqueued.length_eq
    have hlen' := hheld'.length_eq
    rw [List.length_cons] at hlen hlen'
    have hcounted := h.counted
    show s.pending = _
    rw [hsum]
    omega
  · have hbegun : ((s.take w worker d task left).queued ++ (s.begun ++ [task])).Perm
        (s.queued ++ s.begun) := by
      rw [← List.append_assoc]
      refine (List.perm_append_singleton task _).trans ?_
      rw [← List.cons_append]
      exact hqueued.symm.append_right _
    exact hbegun.trans h.popped
  · refine (hheld'.append_right _).trans ?_
    refine .trans ?_ (List.perm_append_singleton task _).symm
    exact h.finished.cons task
  · intro other ho hr
    rcases mem_set_cases ho with rfl | ho
    · cases hr
    · exact h.quiet other ho hr

theorem Inv.credit (h : s.Inv) {child accepted refused : Job}
    (hw : s.workers[w]? = some worker)
    (hphase : worker.phase = .running task (.spawn child accepted refused)) :
    (s.credit w worker task child accepted refused).Inv := by
  let new : Worker := { worker with phase := .pushing task child accepted refused }
  have hperm : ((s.credit w worker task child accepted refused).held).Perm s.held := by
    have hset := perm_held hw new
    rw [hphase] at hset
    exact (List.perm_append_left_iff [task]).mp hset
  have hsum : (s.credit w worker task child accepted refused).spawning = s.spawning + 1 := by
    have hset := sum_spawning hw new
    rw [hphase] at hset
    exact hset
  refine ⟨?_, h.numbered, h.popped, (hperm.append_right _).trans h.finished, ?_, h.staffed_set⟩
  · have hcounted := h.counted
    rw [hsum, hperm.length_eq]
    show s.pending + 1 = s.queued.length + _ + _
    omega
  · exact h.quiet_of_busy hw (by rw [hphase]; exact List.cons_ne_nil _ _) new Phase.noConfusion

theorem Inv.push (h : s.Inv) {child accepted refused : Job} {granted : Bool}
    (hw : s.workers[w]? = some worker)
    (hphase : worker.phase = .pushing task child accepted refused)
    (hs : s.push w worker task child accepted refused granted = some s') : s'.Inv := by
  obtain ⟨own, hown, hs⟩ := Option.bind_eq_some_iff.mp hs
  cases granted with
  | false =>
    cases hs
    exact h.move hw (by rw [hphase]; rfl) (by rw [hphase]; rfl) nofun
  | true =>
    cases hs
    let new : Worker := { worker with phase := .running task accepted }
    have hperm : ((s.workers.set w new).flatMap (·.phase.held)).Perm s.held := by
      have hset := perm_held hw new
      rw [hphase] at hset
      exact (List.perm_append_left_iff [task]).mp hset
    have hsum : ((s.workers.set w new).map (·.phase.spawning)).sum + 1 = s.spawning := by
      have hset := sum_spawning hw new
      rw [hphase] at hset
      exact hset
    let spawned : Task := ⟨s.spawned.length, child⟩
    have hqueued : ((s.deques.set w (own ++ [spawned])).flatten).Perm (spawned :: s.queued) := by
      have hset := perm_flatten_set hown (own ++ [spawned])
      rw [List.append_assoc] at hset
      exact (List.perm_append_left_iff own).mp hset
    refine ⟨?_, ?_, ?_, (hperm.append_right _).trans h.finished, ?_, h.staffed_set⟩
    · have hcounted := h.counted
      have hlen := hqueued.length_eq
      rw [List.length_cons] at hlen
      show s.pending = ((s.deques.set w (own ++ [spawned])).flatten).length +
        ((s.workers.set w new).flatMap (·.phase.held)).length +
        ((s.workers.set w new).map (·.phase.spawning)).sum
      rw [hperm.length_eq]
      omega
    · show (s.spawned ++ [spawned]).map Task.id = List.range (s.spawned ++ [spawned]).length
      rw [List.map_append, h.numbered, List.length_append]
      exact List.range_succ.symm
    · refine (hqueued.append_right _).trans ?_
      refine .trans ?_ (List.perm_append_singleton spawned _).symm
      exact h.popped.cons spawned
    · exact h.quiet_of_busy hw (by rw [hphase]; exact List.cons_ne_nil _ _) new Phase.noConfusion

theorem Inv.refund (h : s.Inv) {rest : Job} (hw : s.workers[w]? = some worker)
    (hphase : worker.phase = .refunding task rest) : (s.refund w worker task rest).Inv := by
  let new : Worker := { worker with phase := .running task rest }
  have hperm : ((s.refund w worker task rest).held).Perm s.held := by
    have hset := perm_held hw new
    rw [hphase] at hset
    exact (List.perm_append_left_iff [task]).mp hset
  have hsum : (s.refund w worker task rest).spawning + 1 = s.spawning := by
    have hset := sum_spawning hw new
    rw [hphase] at hset
    exact hset
  refine ⟨?_, h.numbered, h.popped, (hperm.append_right _).trans h.finished, ?_, h.staffed_set⟩
  · have hcounted := h.counted
    rw [hperm.length_eq]
    show s.pending - 1 = s.queued.length + _ + _
    omega
  · exact h.quiet_of_busy hw (by rw [hphase]; exact List.cons_ne_nil _ _) new Phase.noConfusion

theorem Inv.finish (h : s.Inv) {rest : Job} {panicked : Bool} (hw : s.workers[w]? = some worker)
    (hphase : worker.phase = .running task rest) : (s.finish w worker task panicked).Inv := by
  let new : Worker := ⟨.checking, worker.sawPanic || panicked⟩
  have hperm : (task :: (s.finish w worker task panicked).held).Perm s.held := by
    have hset := perm_held hw new
    rw [hphase] at hset
    exact hset
  have hsum : (s.finish w worker task panicked).spawning = s.spawning := by
    have hset := sum_spawning hw new
    rw [hphase] at hset
    exact hset
  refine ⟨?_, h.numbered, h.popped, ?_, ?_, h.staffed_set⟩
  · have hcounted := h.counted
    have hlen := hperm.length_eq
    rw [List.length_cons] at hlen
    rw [hsum]
    show s.pending - 1 = s.queued.length + _ + _
    omega
  · show (_ ++ (s.ended ++ [task])).Perm s.begun
    rw [← List.append_assoc]
    refine (List.perm_append_singleton task _).trans ?_
    rw [← List.cons_append]
    exact (hperm.append_right _).trans h.finished
  · exact h.quiet_of_busy hw (by rw [hphase]; exact List.cons_ne_nil _ _) new Phase.noConfusion

theorem held_afterEmpty (s : Region) (k : Nat) : (s.afterEmpty k).held = [] := by
  rw [afterEmpty]
  split <;> rfl

theorem spawning_afterEmpty (s : Region) (k : Nat) : (s.afterEmpty k).spawning = 0 := by
  rw [afterEmpty]
  split <;> rfl

theorem afterEmpty_ne_returned (s : Region) (k : Nat) : s.afterEmpty k ≠ .returned := by
  rw [afterEmpty]
  split <;> exact Phase.noConfusion

theorem Inv.pop (h : s.Inv) {granted : Bool} (hw : s.workers[w]? = some worker)
    (hphase : worker.phase = .popping) (hs : s.pop w worker granted = some s') : s'.Inv := by
  have hheld : worker.phase.held = [] := by rw [hphase]; rfl
  have hspawning : worker.phase.spawning = 0 := by rw [hphase]; rfl
  obtain ⟨own, hown, hs⟩ := Option.bind_eq_some_iff.mp hs
  cases granted with
  | false =>
    cases hs
    exact h.move hw hheld hspawning nofun
  | true =>
    simp only [Bool.not_true, Bool.false_eq_true, if_false] at hs
    split at hs
    · next task hlast =>
      cases hs
      refine h.take hw hheld hspawning hown ?_
      have hsplit := List.dropLast_append_getLast? task hlast
      exact (List.Perm.of_eq hsplit.symm).trans (List.perm_append_singleton task _)
    · cases hs
      exact h.move hw (hheld.trans (held_afterEmpty s 1).symm)
        (hspawning.trans (spawning_afterEmpty s 1).symm)
        fun hr => absurd hr (afterEmpty_ne_returned s 1)

theorem Inv.steal (h : s.Inv) {k : Nat} {granted : Bool} (hw : s.workers[w]? = some worker)
    (hphase : worker.phase = .stealing k) (hs : s.steal w k worker granted = some s') :
    s'.Inv := by
  have hheld : worker.phase.held = [] := by rw [hphase]; rfl
  have hspawning : worker.phase.spawning = 0 := by rw [hphase]; rfl
  obtain ⟨deque, hd, hs⟩ := Option.bind_eq_some_iff.mp hs
  cases granted with
  | false =>
    cases hs
    exact h.move hw hheld hspawning nofun
  | true =>
    cases deque with
    | cons task left =>
      cases hs
      exact h.take hw hheld hspawning hd (.refl _)
    | nil =>
      cases hs
      exact h.move hw (hheld.trans (held_afterEmpty s (k + 1)).symm)
        (hspawning.trans (spawning_afterEmpty s (k + 1)).symm)
        fun hr => absurd hr (afterEmpty_ne_returned s (k + 1))

theorem step_inv {a : Action} (h : s.Inv) (hs : s.step a = some s') : s'.Inv := by
  obtain ⟨worker, hw, hs⟩ := Option.bind_eq_some_iff.mp hs
  split at hs
  · next hphase =>
    cases hs
    exact h.look hw (by rw [hphase]; rfl) (by rw [hphase]; rfl) rfl rfl nofun
  · next hphase => exact h.pop hw hphase hs
  · next k hphase => exact h.steal hw hphase hs
  · next hphase =>
    cases hs
    exact h.look hw (by rw [hphase]; rfl) (by rw [hphase]; rfl) rfl rfl nofun
  · next hphase =>
    cases hs
    exact h.credit hw hphase
  · next hphase =>
    cases hs
    exact h.finish hw hphase
  · next hphase =>
    cases hs
    exact h.finish hw hphase
  · next hphase => exact h.push hw hphase hs
  · next hphase =>
    cases hs
    exact h.refund hw hphase
  · cases hs

-- ---------------------------------------------------------------------------
-- Every job once
-- ---------------------------------------------------------------------------

/-- The states of all interleavings. -/
abbrev Reached (start s : Region) : Prop := Reachable step (fun _ _ => True) start s

theorem reached_inv {root : Job} {n : Nat} {first : Region} (hstart : start root n = .ok first)
    (h : Reached first s) : s.Inv :=
  h.invariant (start_inv hstart) fun _ _ _ hinv _ hs => step_inv hinv hs

/-- Nothing is left when the counter is at 0. -/
theorem Inv.drained (h : s.Inv) (hzero : s.pending = 0) :
    s.queued = [] ∧ s.held = [] ∧ s.spawning = 0 := by
  have hcounted := h.counted
  refine ⟨List.length_eq_zero_iff.mp ?_, List.length_eq_zero_iff.mp ?_, ?_⟩ <;> omega

theorem Inv.all_ended (h : s.Inv) (hzero : s.pending = 0) :
    s.begun.Perm s.spawned ∧ s.ended.Perm s.spawned := by
  obtain ⟨hqueued, hheld, -⟩ := h.drained hzero
  have hbegun := h.popped
  have hended := h.finished
  rw [hqueued, List.nil_append] at hbegun
  rw [hheld, List.nil_append] at hended
  exact ⟨hbegun, hended.trans hbegun⟩

/-- `pending` counts the jobs that are queued, held or being spawned; nobody
returns while there is one; and when all have returned, every spawned job has
been run once. -/
theorem run_once {root : Job} {n : Nat} {first : Region} (hstart : start root n = .ok first)
    (h : Reached first s) :
    s.pending = s.queued.length + s.held.length + s.spawning ∧
    (∀ worker ∈ s.workers, worker.phase = .returned →
      s.queued = [] ∧ s.held = [] ∧ s.spawning = 0) ∧
    (s.spawned.map Task.id).Nodup ∧
    (s.joined → s.begun.Perm s.spawned ∧ s.ended.Perm s.spawned) := by
  have hinv := reached_inv hstart h
  refine ⟨hinv.counted, ?_, ?_, ?_⟩
  · intro worker hw hr
    exact hinv.drained (hinv.quiet worker hw hr)
  · rw [hinv.numbered]
    exact List.nodup_range
  · intro hjoined
    obtain ⟨worker, hw⟩ := List.exists_mem_of_ne_nil _ hinv.staffed
    have hr := List.all_eq_true.mp hjoined worker hw
    exact hinv.all_ended (hinv.quiet worker hw (of_decide_eq_true hr))

/-- A job whose first child panics and whose second child is refused. -/
def relay : Job := .spawn .panics (.spawn .done .done .done) .done

def relayStart : Region where
  pending := 1
  deques := [[⟨0, relay⟩], []]
  workers := [⟨.checking, false⟩, ⟨.checking, false⟩]
  spawned := [⟨0, relay⟩]
  begun := []
  ended := []

/-- Worker 0 runs the root, worker 1 steals the child. -/
def relaySteps : List Action :=
  [⟨0, true⟩, ⟨0, true⟩, ⟨0, true⟩, ⟨0, true⟩, ⟨0, true⟩, ⟨0, false⟩, ⟨0, true⟩, ⟨1, true⟩,
    ⟨1, true⟩, ⟨1, false⟩, ⟨0, true⟩, ⟨1, true⟩, ⟨1, true⟩, ⟨1, true⟩, ⟨1, true⟩, ⟨1, true⟩,
    ⟨0, true⟩]

def relayEnd : Region where
  pending := 0
  deques := [[], []]
  workers := [⟨.returned, false⟩, ⟨.returned, true⟩]
  spawned := [⟨0, relay⟩, ⟨1, .panics⟩]
  begun := [⟨0, relay⟩, ⟨1, .panics⟩]
  ended := [⟨0, relay⟩, ⟨1, .panics⟩]

theorem relay_reached : Reached relayStart relayEnd :=
  reachable_of_run (fun _ _ => trivial) .start (show run step relayStart relaySteps = _ by decide)

theorem run_once_relay :
    relayEnd.begun.Perm relayEnd.spawned ∧ relayEnd.ended.Perm relayEnd.spawned :=
  (run_once (show start relay 2 = .ok relayStart from rfl) relay_reached).2.2.2 rfl

end Region

end ForkJoin

end Sxla
