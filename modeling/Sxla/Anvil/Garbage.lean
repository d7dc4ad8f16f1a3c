import Sxla.Anvil.Ebr
import Sxla.Library.Chain

/-!
# The garbage of the collector

The stack of retired boxes at the level of its nodes: cells of a heap at
addresses that the allocator may hand out again, with 0 as the null pointer.
Memory is sequentially consistent, and one step is one access of a shared
word. The k-th call of `retire_box` retires object k.

Following a pointer to a cell that is not allocated sets `fault`.
-/

namespace Sxla

open Transition Linked

namespace Garbage

open Ebr (EBR_RETIRE_THRESHOLD wrappingAdd)

/-- A `Retired` node with the box that it carries. -/
structure Cell where
  object : Nat
  epoch : Nat
  next : Nat
deriving DecidableEq, Repr

/-- Where a thread stands, before the access of that name. `heading` and
`pushing` are the push of `retire_box`, `restoring` and `restorePushing` those
of `collect`. -/
inductive Phase where
  | idle
  | pinning (slot epoch : Nat)
  | stamping (object : Nat)
  | heading (node : Nat)
  | pushing (node head : Nat)
  | counting
  | loading
  | scanning (g i : Nat)
  | advancing (g : Nat)
  | reading
  | swapping (now : Nat)
  | sweeping (now head : Nat) (keep : List Nat) (freed : Nat)
  | restoring (keep : List Nat) (freed : Nat)
  | restorePushing (node head : Nat) (keep : List Nat) (freed : Nat)
  | tallying (freed : Nat)
  | resetting
deriving DecidableEq, Repr

/-- `guards` are the slots that the thread has pinned; `retires` tells whether
its `collect` was called by `retire_box`. -/
structure Thread where
  phase : Phase
  guards : List Nat
  retires : Bool
deriving DecidableEq, Repr

/-- `retired`, `destroyed` and `advances` record the calls of `retire_box`,
the boxes destroyed and the successful exchanges of the epoch. -/
structure Collector where
  globalEpoch : Nat
  slots : List Nat
  heap : Nat → Option Cell
  garbageHead : Nat
  retiresSinceCollect : Nat
  freedCount : Nat
  threads : List Thread
  retired : Nat
  destroyed : List Nat
  advances : Nat
  fault : Bool

inductive Action where
  | pin (t slot : Nat)
  | dropGuard (t slot : Nat)
  | retire (t : Nat)
  /-- The load of the stamp, and the node that is allocated for it. -/
  | stamp (t address : Nat)
  | collect (t : Nat)
  /-- The next access of a call; `fails` makes a weak exchange fail. -/
  | run (t : Nat) (fails : Bool)
deriving DecidableEq, Repr

namespace Collector

def start (threads slots : Nat) : Collector where
  globalEpoch := 0
  slots := List.replicate slots 0
  heap := fun _ => none
  garbageHead := 0
  retiresSinceCollect := 0
  freedCount := 0
  threads := List.replicate threads ⟨.idle, [], false⟩
  retired := 0
  destroyed := []
  advances := 0
  fault := false

def put (s : Collector) (t : Nat) (thread : Thread) : Collector :=
  { s with threads := s.threads.set t thread }

def enter (s : Collector) (t : Nat) (thread : Thread) (phase : Phase) : Collector :=
  s.put t { thread with phase }

def write (s : Collector) (address : Nat) (cell : Option Cell) : Collector :=
  { s with heap := fun a => if a = address then cell else s.heap a }

def dangle (s : Collector) (t : Nat) (thread : Thread) : Collector :=
  { s.enter t thread .idle with fault := true }

/-- The load of slot `i` in the scan. -/
def scan (s : Collector) (t : Nat) (thread : Thread) (g i : Nat) : Collector :=
  match s.slots[i]? with
  | none => s.enter t thread (.advancing g)
  | some v =>
    if v ≠ 0 ∧ v ≠ wrappingAdd g 1 then s.enter t thread .reading
    else s.enter t thread (.scanning g (i + 1))

/-- `compare_exchange(g, g + 1)` on the epoch. -/
def advance (s : Collector) (t : Nat) (thread : Thread) (g : Nat) : Collector :=
  let s' := s.enter t thread .reading
  if s.globalEpoch = g then
    { s' with globalEpoch := wrappingAdd g 1, advances := s.advances + 1 }
  else s'

/-- `(*node).next = head` and the weak exchange of the head. -/
def push (s : Collector) (t : Nat) (thread : Thread) (node head : Nat) (fails : Bool)
    (retry : Nat → Phase) (done : Phase) : Collector :=
  match s.heap node with
  | none => s.dangle t thread
  | some cell =>
    let s' := s.write node (some { cell with next := head })
    if fails ∨ s.garbageHead ≠ head then s'.enter t thread (retry s.garbageHead)
    else { s'.enter t thread done with garbageHead := node }

def count (s : Collector) (t : Nat) (thread : Thread) : Collector :=
  let n := wrappingAdd s.retiresSinceCollect 1
  let thread' :=
    if n ≥ EBR_RETIRE_THRESHOLD then { thread with phase := .loading, retires := true }
    else { thread with phase := .idle }
  { s.put t thread' with retiresSinceCollect := n }

/-- One node of the popped stack. -/
def sweep (s : Collector) (t : Nat) (thread : Thread) (now head : Nat) (keep : List Nat)
    (freed : Nat) : Collector :=
  if head = 0 then s.enter t thread (.restoring keep freed)
  else
    match s.heap head with
    | none => s.dangle t thread
    | some cell =>
      if now ≥ wrappingAdd cell.epoch 2 then
        { (s.write head none).enter t thread (.sweeping now cell.next keep (freed + 1)) with
          destroyed := s.destroyed ++ [cell.object] }
      else s.enter t thread (.sweeping now cell.next (keep ++ [head]) freed)

/-- The end of `collect`. -/
def finish (s : Collector) (t : Nat) (thread : Thread) (freed : Nat) : Collector :=
  { s.enter t thread (if thread.retires then .resetting else .idle) with
    freedCount := wrappingAdd s.freedCount freed }

/-- The next access of a call. -/
def access (s : Collector) (t : Nat) (thread : Thread) (fails : Bool) : Option Collector :=
  match thread.phase with
  | .idle | .stamping _ => none
  | .pinning slot epoch =>
    some { s.put t { thread with phase := .idle, guards := thread.guards ++ [slot] } with
      slots := s.slots.set slot (wrappingAdd epoch 1) }
  | .heading node => some (s.enter t thread (.pushing node s.garbageHead))
  | .pushing node head => some (s.push t thread node head fails (.pushing node) .counting)
  | .counting => some (s.count t thread)
  | .loading => some (s.enter t thread (.scanning s.globalEpoch 0))
  | .scanning g i => some (s.scan t thread g i)
  | .advancing g => some (s.advance t thread g)
  | .reading => some (s.enter t thread (.swapping s.globalEpoch))
  | .swapping now =>
    some { s.enter t thread (.sweeping now s.garbageHead [] 0) with garbageHead := 0 }
  | .sweeping now head keep freed => some (s.sweep t thread now head keep freed)
  | .restoring [] freed => some (s.enter t thread (.tallying freed))
  | .restoring (node :: keep) freed =>
    some (s.enter t thread (.restorePushing node s.garbageHead keep freed))
  | .restorePushing node head keep freed =>
    some (s.push t thread node head fails (.restorePushing node · keep freed)
      (.restoring keep freed))
  | .tallying freed => some (s.finish t thread freed)
  | .resetting =>
    some { s.put t { thread with phase := .idle, retires := false } with
      retiresSinceCollect := 0 }

def step (s : Collector) : Action → Option Collector
  | .pin t slot => do
    let thread ← s.threads[t]?
    if thread.phase = .idle ∧ slot < s.slots.length then
      some (s.enter t thread (.pinning slot s.globalEpoch))
    else none
  | .dropGuard t slot => do
    let thread ← s.threads[t]?
    if thread.phase = .idle ∧ slot ∈ thread.guards then
      some { s.put t { thread with guards := thread.guards.erase slot } with
        slots := s.slots.set slot 0 }
    else none
  | .retire t => do
    let thread ← s.threads[t]?
    if thread.phase = .idle then
      some { s.enter t thread (.stamping s.retired) with retired := s.retired + 1 }
    else none
  | .stamp t address => do
    let thread ← s.threads[t]?
    match thread.phase with
    | .stamping object =>
      if address ≠ 0 ∧ s.heap address = none then
        some ((s.write address (some ⟨object, s.globalEpoch, 0⟩)).enter t thread
          (.heading address))
      else none
    | _ => none
  | .collect t => do
    let thread ← s.threads[t]?
    if thread.phase = .idle then some (s.enter t thread .loading) else none
  | .run t fails => do s.access t (← s.threads[t]?) fails

def Reached (threads slots : Nat) (s : Collector) : Prop :=
  Reachable step (fun _ _ => True) (start threads slots) s

end Collector

-- ---------------------------------------------------------------------------
-- Who holds a box
-- ---------------------------------------------------------------------------

namespace Phase

/-- The box that has no node yet. -/
def unstamped : Phase → List Nat
  | .stamping object => [object]
  | _ => []

/-- The node that `retire_box` has not pushed yet. -/
def unpushed : Phase → List Nat
  | .heading node | .pushing node _ => [node]
  | _ => []

/-- The nodes that `collect` pushes back. -/
def kept : Phase → List Nat
  | .sweeping _ _ keep _ | .restoring keep _ => keep
  | .restorePushing node _ keep _ => node :: keep
  | _ => []

/-- The popped stack that `collect` walks. -/
def cursor : Phase → Nat
  | .sweeping _ head _ _ => head
  | _ => 0

/-- Boxes that `collect` has destroyed and not counted. -/
def freed : Phase → Nat
  | .sweeping _ _ _ freed | .restoring _ freed | .restorePushing _ _ _ freed
  | .tallying freed => freed
  | _ => 0

/-- Inside `retire_box`, before its `collect`. -/
def retiring : Phase → Bool
  | .stamping _ | .heading _ | .pushing .. | .counting => true
  | _ => false

/-- Inside `collect`. -/
def collecting : Phase → Bool
  | .loading | .scanning .. | .advancing _ | .reading | .swapping _ | .sweeping ..
  | .restoring .. | .restorePushing .. | .tallying _ => true
  | _ => false

def held (phase : Phase) : List Nat := phase.unpushed ++ phase.kept

/-- What the invariant reads of a phase. -/
def profile (phase : Phase) : List Nat × Nat × List Nat × Nat :=
  (phase.held, phase.cursor, phase.unstamped, phase.freed)

end Phase

/-- A thread with the nodes behind its cursor. -/
abbrev View := Thread × List Nat

def View.nodes (view : View) : List Nat := view.2 ++ view.1.phase.held

/-- The nodes on the stack and those in the threads' hands. -/
def owned (stack : List Nat) (views : List View) : List Nat := stack ++ views.flatMap View.nodes

namespace Collector

def nextOf (s : Collector) (a : Nat) : Option Nat := (s.heap a).map (·.next)

def objectsAt (s : Collector) (nodes : List Nat) : List Nat :=
  nodes.filterMap fun a => (s.heap a).map (·.object)

-- ---------------------------------------------------------------------------
-- The invariant
-- ---------------------------------------------------------------------------

structure Owns (s : Collector) (stack : List Nat) (views : List View) : Prop where
  threads : views.map (·.1) = s.threads
  linked : Chain s.nextOf 0 s.garbageHead stack
  walked : ∀ view ∈ views, Chain s.nextOf 0 view.1.phase.cursor view.2
  nodup : (owned stack views).Nodup
  allocated : ∀ a ∈ owned stack views, a ≠ 0 ∧ ∃ cell, s.heap a = some cell
  once : (s.threads.flatMap (·.phase.unstamped) ++ s.objectsAt (owned stack views) ++
    s.destroyed).Perm (List.range s.retired)

structure Inv (s : Collector) : Prop where
  owns : ∃ stack views, s.Owns stack views
  tally : (s.freedCount + (s.threads.map (·.phase.freed)).sum) % 0x10000000000000000 =
    s.destroyed.length % 0x10000000000000000
  freed_lt : s.freedCount < 0x10000000000000000
  epoch : s.globalEpoch = s.advances % 0x10000000000000000
  stamps : ∀ a cell, s.heap a = some cell → cell.epoch ≤ s.advances
  fault : s.fault = false

/-- What a step of one thread does to the stack and to the thread's nodes:
boxes are `issued` by a call and `gone` once destroyed. -/
structure Change (s s' : Collector) (t : Nat) (thread new : Thread)
    (stack stack' rest rest' issued gone : List Nat) : Prop where
  threads : s'.threads = s.threads.set t new
  retired : List.range s'.retired = List.range s.retired ++ issued
  destroyed : s'.destroyed = s.destroyed ++ gone
  linked : Chain s'.nextOf 0 s'.garbageHead stack'
  walked : Chain s'.nextOf 0 new.phase.cursor rest'
  nodup : (stack' ++ View.nodes (new, rest')).Nodup
  fresh : ∀ a ∈ stack' ++ View.nodes (new, rest'),
    a ∈ stack ++ View.nodes (thread, rest) ∨ s.heap a = none
  allocated : ∀ a ∈ stack' ++ View.nodes (new, rest'), a ≠ 0 ∧ ∃ cell, s'.heap a = some cell
  others : ∀ a, a ∉ stack ++ View.nodes (thread, rest) → (∃ cell, s.heap a = some cell) →
    s'.heap a = s.heap a
  balance : (new.phase.unstamped ++ s'.objectsAt (stack' ++ View.nodes (new, rest')) ++
    gone).Perm (thread.phase.unstamped ++ s.objectsAt (stack ++ View.nodes (thread, rest)) ++
      issued)

variable {s s' : Collector} {t : Nat} {thread new : Thread} {views : List View} {l l' : List Nat}
  {stack stack' rest rest' issued gone : List Nat} {phase : Phase}

theorem objectsAt_append : s.objectsAt (l ++ l') = s.objectsAt l ++ s.objectsAt l' :=
  List.filterMap_append

theorem objectsAt_congr (h : ∀ a ∈ l, (s'.heap a).map (·.object) = (s.heap a).map (·.object)) :
    s'.objectsAt l = s.objectsAt l :=
  List.filterMap_congr h

theorem Owns.view (h : s.Owns stack views) (ht : s.threads[t]? = some thread) :
    ∃ rest, views[t]? = some (thread, rest) := by
  rw [← h.threads, List.getElem?_map, Option.map_eq_some_iff] at ht
  obtain ⟨view, hview, rfl⟩ := ht
  exact ⟨view.2, hview⟩

/-- The nodes of the other threads. -/
def otherNodes (views : List View) (t : Nat) : List Nat :=
  (views.set t (⟨.idle, [], false⟩, [])).flatMap View.nodes

theorem owned_perm (hv : views[t]? = some (thread, rest)) :
    (owned stack views).Perm (stack ++ View.nodes (thread, rest) ++ otherNodes views t) ∧
      ∀ view, (owned stack' (views.set t view)).Perm
        (stack' ++ view.nodes ++ otherNodes views t) := by
  obtain ⟨hall, hset⟩ := flatMap_split View.nodes hv
    (show View.nodes (⟨.idle, [], false⟩, []) = [] from rfl)
  constructor
  · rw [List.append_assoc]
    exact hall.append_left stack
  · intro view
    rw [List.append_assoc]
    exact (hset view).append_left stack'

theorem mem_otherNodes {r a : Nat} {view : View} (hr : views[r]? = some view) (hne : r ≠ t)
    (ha : a ∈ view.nodes) : a ∈ otherNodes views t := by
  refine List.mem_flatMap.mpr ⟨view, List.mem_of_getElem? (i := r) ?_, ha⟩
  rw [List.getElem?_set_ne (Ne.symm hne)]
  exact hr

theorem Change.owns (hc : Change s s' t thread new stack stack' rest rest' issued gone)
    (h : s.Owns stack views) (hv : views[t]? = some (thread, rest))
    (ht : s.threads[t]? = some thread) : s'.Owns stack' (views.set t (new, rest')) := by
  obtain ⟨hold, hnew⟩ := @owned_perm t thread views stack stack' rest hv
  have hnodup := hold.nodup_iff.mp h.nodup
  rw [List.nodup_append] at hnodup
  obtain ⟨-, hothers, hdisjoint⟩ := hnodup
  have hapart : ∀ a ∈ otherNodes views t, a ∉ stack ++ View.nodes (thread, rest) :=
    fun a ha hmine => hdisjoint a hmine a ha rfl
  have hlive : ∀ a ∈ otherNodes views t, a ≠ 0 ∧ ∃ cell, s.heap a = some cell :=
    fun a ha => h.allocated a (hold.mem_iff.mpr (List.mem_append_right _ ha))
  have hkeep : ∀ a ∈ otherNodes views t, s'.heap a = s.heap a :=
    fun a ha => hc.others a (hapart a ha) (hlive a ha).2
  refine ⟨?_, hc.linked, ?_, ?_, ?_, ?_⟩
  · rw [List.map_set, h.threads, hc.threads]
  · intro view hview
    obtain ⟨r, hr⟩ := List.mem_iff_getElem?.mp hview
    rcases getElem?_set_cases hr with ⟨-, rfl⟩ | ⟨hne, hr⟩
    · exact hc.walked
    · refine (h.walked view (List.mem_of_getElem? hr)).congr fun a ha => ?_
      rw [nextOf, nextOf, hkeep a (mem_otherNodes hr hne (List.mem_append_left _ ha))]
  · refine (hnew _).nodup_iff.mpr (List.nodup_append.mpr ⟨hc.nodup, hothers, ?_⟩)
    rintro a ha b hb rfl
    rcases hc.fresh a ha with hmine | hnone
    · exact hapart a hb hmine
    · obtain ⟨cell, hcell⟩ := (hlive a hb).2
      rw [hnone] at hcell
      cases hcell
  · intro a ha
    rcases List.mem_append.mp ((hnew _).mem_iff.mp ha) with hmine | hother
    · exact hc.allocated a hmine
    · rw [hkeep a hother]
      exact hlive a hother
  · rw [hc.threads, hc.retired, hc.destroyed]
    have hunstamped := perm_flatMap_set (fun thread => thread.phase.unstamped) ht new
    have hobjects : (s'.objectsAt (owned stack' (views.set t (new, rest')))).Perm
        (s'.objectsAt (stack' ++ View.nodes (new, rest')) ++ s.objectsAt (otherNodes views t)) := by
      have hsame := objectsAt_congr fun a ha => congrArg (Option.map (·.object)) (hkeep a ha)
      rw [← hsame, ← objectsAt_append]
      exact (hnew _).filterMap _
    have hbefore : (s.objectsAt (owned stack views)).Perm
        (s.objectsAt (stack ++ View.nodes (thread, rest)) ++ s.objectsAt (otherNodes views t)) := by
      rw [← objectsAt_append]
      exact hold.filterMap _
    refine List.perm_iff_count.mpr fun o => ?_
    have h₁ := List.perm_iff_count.mp hunstamped o
    have h₂ := List.perm_iff_count.mp hobjects o
    have h₃ := List.perm_iff_count.mp hbefore o
    have h₄ := List.perm_iff_count.mp hc.balance o
    have h₅ := List.perm_iff_count.mp h.once o
    simp only [List.count_append] at h₁ h₂ h₃ h₄ h₅ ⊢
    omega

/-- The boxes and their nodes stay as they are; nodes may change hands. -/
theorem Owns.moved (h : s.Owns stack views) (hv : views[t]? = some (thread, rest))
    (hthreads : s'.threads = s.threads.set t new) (hretired : s'.retired = s.retired)
    (hdestroyed : s'.destroyed = s.destroyed)
    (hlinked : Chain s'.nextOf 0 s'.garbageHead stack')
    (hwalked : Chain s'.nextOf 0 new.phase.cursor rest')
    (hperm : (stack' ++ View.nodes (new, rest')).Perm (stack ++ View.nodes (thread, rest)))
    (hobjects : ∀ a, (s'.heap a).map (·.object) = (s.heap a).map (·.object))
    (hothers : ∀ a, a ∉ stack ++ View.nodes (thread, rest) → s'.heap a = s.heap a)
    (hunstamped : new.phase.unstamped = thread.phase.unstamped) :
    Change s s' t thread new stack stack' rest rest' [] [] := by
  obtain ⟨hold, -⟩ := @owned_perm t thread views stack stack' rest hv
  have hnodup := (List.nodup_append.mp (hold.nodup_iff.mp h.nodup)).1
  refine
    { threads := hthreads
      retired := by rw [hretired, List.append_nil]
      destroyed := by rw [hdestroyed, List.append_nil]
      linked := hlinked
      walked := hwalked
      nodup := hperm.nodup_iff.mpr hnodup
      fresh := fun a ha => .inl (hperm.mem_iff.mp ha)
      allocated := fun a ha => ?_
      others := fun a ha _ => hothers a ha
      balance := ?_ }
  · have hmine := List.mem_append_left (otherNodes views t) (hperm.mem_iff.mp ha)
    obtain ⟨hne, cell, hcell⟩ := h.allocated a (hold.mem_iff.mpr hmine)
    have hobject := hobjects a
    rw [hcell, Option.map_some, Option.map_eq_some_iff] at hobject
    obtain ⟨cell', hcell', -⟩ := hobject
    exact ⟨hne, cell', hcell'⟩
  · rw [hunstamped, objectsAt_congr fun a _ => hobjects a]
    exact ((hperm.filterMap _).append_left _).append_right _

theorem Inv.change (hs : s.Inv) (h : s.Owns stack views) (hv : views[t]? = some (thread, rest))
    (ht : s.threads[t]? = some thread)
    (hc : Change s s' t thread new stack stack' rest rest' issued gone)
    (htally : (s'.freedCount + new.phase.freed) % 0x10000000000000000 =
      (s.freedCount + thread.phase.freed + gone.length) % 0x10000000000000000)
    (hlt : s'.freedCount < 0x10000000000000000)
    (hepoch : s'.globalEpoch = s'.advances % 0x10000000000000000)
    (hstamps : ∀ a cell, s'.heap a = some cell → cell.epoch ≤ s'.advances)
    (hfault : s'.fault = false) : s'.Inv := by
  refine ⟨⟨_, _, hc.owns h hv ht⟩, ?_, hlt, hepoch, hstamps, hfault⟩
  have hsum := sum_map_set (fun thread => thread.phase.freed) ht new
  have hbefore := hs.tally
  rw [hc.threads, hc.destroyed, List.length_append]
  omega

-- ---------------------------------------------------------------------------
-- Steps
-- ---------------------------------------------------------------------------

/-- A step that leaves the boxes alone. -/
structure Same (s s' : Collector) (t : Nat) (thread new : Thread) : Prop where
  threads : s'.threads = s.threads.set t new
  heap : s'.heap = s.heap
  garbageHead : s'.garbageHead = s.garbageHead
  retired : s'.retired = s.retired
  destroyed : s'.destroyed = s.destroyed
  freedCount : s'.freedCount = s.freedCount
  globalEpoch : s'.globalEpoch = s.globalEpoch
  advances : s'.advances = s.advances
  fault : s'.fault = s.fault
  profile : new.phase.profile = thread.phase.profile

theorem Same.inv (hsame : Same s s' t thread new) (hs : s.Inv)
    (ht : s.threads[t]? = some thread) : s'.Inv := by
  obtain ⟨stack, views, h⟩ := hs.owns
  obtain ⟨rest, hv⟩ := h.view ht
  have hprofile := hsame.profile
  simp only [Phase.profile, Prod.mk.injEq] at hprofile
  obtain ⟨hheld, hcursor, hunstamped, hfreed⟩ := hprofile
  have hnext : s'.nextOf = s.nextOf := by
    funext a
    rw [nextOf, nextOf, hsame.heap]
  have hnodes : View.nodes (new, rest) = View.nodes (thread, rest) := by
    rw [View.nodes, View.nodes, hheld]
  have hc : Change s s' t thread new stack stack rest rest [] [] := by
    refine h.moved hv hsame.threads hsame.retired hsame.destroyed ?_ ?_ ?_ (fun a => ?_)
      (fun a _ => ?_) hunstamped
    · rw [hnext, hsame.garbageHead]
      exact h.linked
    · rw [hnext, hcursor]
      exact h.walked _ (List.mem_of_getElem? hv)
    · rw [hnodes]
    · rw [hsame.heap]
    · rw [hsame.heap]
  refine hs.change h hv ht hc ?_ ?_ ?_ ?_ ?_
  · rw [hsame.freedCount, hfreed]
    rfl
  · rw [hsame.freedCount]
    exact hs.freed_lt
  · rw [hsame.globalEpoch, hsame.advances]
    exact hs.epoch
  · rw [hsame.heap, hsame.advances]
    exact hs.stamps
  · rw [hsame.fault]
    exact hs.fault

theorem Inv.enter (hs : s.Inv) (ht : s.threads[t]? = some thread)
    (hprofile : phase.profile = thread.phase.profile) : (s.enter t thread phase).Inv :=
  @Same.inv s _ t thread { thread with phase } ⟨rfl, rfl, rfl, rfl, rfl, rfl, rfl, rfl, rfl, hprofile⟩ hs ht

theorem Owns.rest_nil (h : s.Owns stack views) (hv : views[t]? = some (thread, rest))
    (hcursor : thread.phase.cursor = 0) : rest = [] := by
  have hwalked := h.walked _ (List.mem_of_getElem? hv)
  dsimp only at hwalked
  rw [hcursor] at hwalked
  exact hwalked.eq_nil

theorem Owns.mine_nodup (h : s.Owns stack views) (hv : views[t]? = some (thread, rest)) :
    (stack ++ View.nodes (thread, rest)).Nodup ∧
      ∀ a ∈ stack ++ View.nodes (thread, rest), a ≠ 0 ∧ ∃ cell, s.heap a = some cell := by
  obtain ⟨hold, -⟩ := @owned_perm t thread views stack stack rest hv
  refine ⟨(List.nodup_append.mp (hold.nodup_iff.mp h.nodup)).1, fun a ha => ?_⟩
  exact h.allocated a (hold.mem_iff.mpr (List.mem_append_left _ ha))

theorem profile_iff {held unstamped : List Nat} {cursor freed : Nat} :
    phase.profile = (held, cursor, unstamped, freed) ↔ phase.held = held ∧
      phase.cursor = cursor ∧ phase.unstamped = unstamped ∧ phase.freed = freed := by
  simp only [Phase.profile, Prod.mk.injEq]

theorem nodes_eq {held unstamped : List Nat} {cursor freed : Nat}
    (hphase : thread.phase.profile = (held, cursor, unstamped, freed)) :
    View.nodes (thread, rest) = rest ++ held := by
  rw [View.nodes, (profile_iff.mp hphase).1]

/-- A write to the link of a node keeps the boxes and the stamps. -/
theorem write_next {node a : Nat} {cell : Cell} {next : Nat} (hcell : s.heap node = some cell) :
    ((s.write node (some { cell with next })).heap a).map (fun c => (c.object, c.epoch)) =
      (s.heap a).map fun c => (c.object, c.epoch) := by
  simp only [write]
  by_cases ha : a = node
  · subst ha
    rw [if_pos rfl, hcell]
    rfl
  · rw [if_neg ha]

theorem write_object {node a : Nat} {cell : Cell} {next : Nat} (hcell : s.heap node = some cell) :
    ((s.write node (some { cell with next })).heap a).map (·.object) =
      (s.heap a).map (·.object) := by
  have hboth := congrArg (Option.map Prod.fst) (@write_next s node a cell next hcell)
  simpa [Option.map_map, Function.comp_def] using hboth

theorem write_epoch {node a : Nat} {cell c : Cell} {next : Nat} (hcell : s.heap node = some cell)
    (hc : (s.write node (some { cell with next })).heap a = some c) :
    ∃ old, s.heap a = some old ∧ c.epoch = old.epoch := by
  have hboth := @write_next s node a cell next hcell
  rw [hc, Option.map_some, eq_comm, Option.map_eq_some_iff] at hboth
  obtain ⟨old, hold, heq⟩ := hboth
  exact ⟨old, hold, (Prod.mk.inj heq).2.symm⟩

theorem write_of_ne {node a : Nat} {cell : Option Cell} (ha : a ≠ node) :
    (s.write node cell).heap a = s.heap a :=
  if_neg ha

theorem write_self {node : Nat} {cell : Option Cell} : (s.write node cell).heap node = cell :=
  if_pos rfl

/-- A chain that does not visit the cell is as before the write. -/
theorem write_chain {node x : Nat} {cell : Option Cell} (hc : Chain s.nextOf 0 x l)
    (hnode : node ∉ l) : Chain (s.write node cell).nextOf 0 x l := by
  refine hc.congr fun a ha => ?_
  have hne : a ≠ node := by
    rintro rfl
    exact hnode ha
  rw [nextOf, nextOf, write_of_ne hne]

/-- The weak exchange of the head moves the node from the thread to the stack
or leaves it with the thread. -/
theorem Inv.push (hs : s.Inv) (ht : s.threads[t]? = some thread) {node head freed : Nat}
    {keep : List Nat} {fails : Bool} {retry : Nat → Phase} {done : Phase}
    (hphase : thread.phase.profile = (node :: keep, 0, [], freed))
    (hretry : ∀ h, (retry h).profile = (node :: keep, 0, [], freed))
    (hdone : done.profile = (keep, 0, [], freed)) :
    (s.push t thread node head fails retry done).Inv := by
  obtain ⟨stack, views, h⟩ := hs.owns
  obtain ⟨rest, hv⟩ := h.view ht
  obtain ⟨-, hcursor, hunstamped, hfreed⟩ := profile_iff.mp hphase
  obtain rfl := h.rest_nil hv hcursor
  obtain ⟨hnodup, hallocated⟩ := h.mine_nodup hv
  rw [nodes_eq hphase, List.nil_append] at hnodup hallocated
  obtain ⟨hne, cell, hcell⟩ :=
    hallocated node (List.mem_append_right _ List.mem_cons_self)
  have hstack : node ∉ stack := fun hmem =>
    (List.nodup_append.mp hnodup).2.2 node hmem node List.mem_cons_self rfl
  have hothers : ∀ a, a ∉ stack ++ View.nodes (thread, []) →
      (s.write node (some { cell with next := head })).heap a = s.heap a := by
    intro a ha
    rw [nodes_eq hphase] at ha
    refine write_of_ne fun heq => ha ?_
    rw [heq]
    exact List.mem_append_right _ List.mem_cons_self
  have hstamps : ∀ a c, (s.write node (some { cell with next := head })).heap a = some c →
      c.epoch ≤ s.advances := by
    intro a c hc
    obtain ⟨old, hold, hepoch⟩ := write_epoch hcell hc
    rw [hepoch]
    exact hs.stamps a old hold
  have hlinked : Chain (s.write node (some { cell with next := head })).nextOf 0 s.garbageHead
      stack := write_chain h.linked hstack
  rw [Collector.push, hcell]
  dsimp only
  split
  · -- the node stays with the thread
    obtain ⟨hheld', hcursor', hunstamped', hfreed'⟩ := profile_iff.mp (hretry s.garbageHead)
    have hc : Change s ((s.write node (some { cell with next := head })).enter t thread
        (retry s.garbageHead)) t thread { thread with phase := retry s.garbageHead }
        stack stack [] [] [] [] := by
      refine h.moved hv rfl rfl rfl hlinked ?_ ?_ (fun _ => write_object hcell) hothers ?_
      · show Chain _ 0 (retry s.garbageHead).cursor []
        rw [hcursor']
        exact .nil
      · rw [nodes_eq hphase, View.nodes, hheld']
      · exact hunstamped'.trans hunstamped.symm
    refine hs.change h hv ht hc ?_ hs.freed_lt hs.epoch hstamps hs.fault
    show (_ + (retry s.garbageHead).freed) % _ = _
    rw [hfreed', hfreed]
    rfl
  · next hok =>
    have hhead : s.garbageHead = head := Decidable.byContradiction fun hne => hok (.inr hne)
    obtain ⟨hheld', hcursor', hunstamped', hfreed'⟩ := profile_iff.mp hdone
    have hc : Change s { (s.write node (some { cell with next := head })).enter t thread done with
          garbageHead := node } t thread { thread with phase := done }
        stack (node :: stack) [] [] [] [] := by
      refine h.moved hv rfl rfl rfl ?_ ?_ ?_ (fun _ => write_object hcell) hothers ?_
      · refine @Chain.cons _ _ _ _ head _ hne ?_ (hhead ▸ hlinked)
        show ((s.write node _).heap node).map _ = _
        rw [write_self]
        rfl
      · show Chain _ 0 done.cursor []
        rw [hcursor']
        exact .nil
      · rw [nodes_eq hphase, View.nodes, hheld']
        exact List.perm_middle.symm
      · exact hunstamped'.trans hunstamped.symm
    refine hs.change h hv ht hc ?_ hs.freed_lt hs.epoch hstamps hs.fault
    show (_ + done.freed) % _ = _
    rw [hfreed', hfreed]
    rfl

/-- The exchange of the head with null hands the whole stack to the thread. -/
theorem Inv.swap (hs : s.Inv) (ht : s.threads[t]? = some thread) {now : Nat}
    (hphase : thread.phase = .swapping now) :
    Inv { s.enter t thread (.sweeping now s.garbageHead [] 0) with garbageHead := 0 } := by
  obtain ⟨stack, views, h⟩ := hs.owns
  obtain ⟨rest, hv⟩ := h.view ht
  obtain rfl := h.rest_nil hv (by rw [hphase]; rfl)
  have hc : Change s { s.enter t thread (.sweeping now s.garbageHead [] 0) with garbageHead := 0 }
      t thread { thread with phase := .sweeping now s.garbageHead [] 0 }
      stack [] [] stack [] [] := by
    refine h.moved hv rfl rfl rfl .nil h.linked ?_ (fun _ => rfl) (fun _ _ => rfl) ?_
    · simp [View.nodes, hphase, Phase.held, Phase.unpushed, Phase.kept]
    · rw [hphase]
      rfl
  refine hs.change h hv ht hc ?_ hs.freed_lt hs.epoch hs.stamps hs.fault
  rw [hphase]
  rfl

/-- The box of the node at the cursor is destroyed. -/
theorem Owns.destroy (h : s.Owns stack views) {now head freed : Nat} {keep tail : List Nat}
    {cell : Cell} (hv : views[t]? = some (thread, head :: tail))
    (hphase : thread.phase = .sweeping now head keep freed) (hcell : s.heap head = some cell)
    (htail : Chain s.nextOf 0 cell.next tail) :
    Change s { (s.write head none).enter t thread (.sweeping now cell.next keep (freed + 1)) with
        destroyed := s.destroyed ++ [cell.object] } t thread
      { thread with phase := .sweeping now cell.next keep (freed + 1) }
      stack stack (head :: tail) tail [] [cell.object] := by
  obtain ⟨hnodup, hallocated⟩ := h.mine_nodup hv
  have hnodes : View.nodes (thread, head :: tail) = head :: (tail ++ keep) := by
    rw [View.nodes, hphase]
    rfl
  rw [hnodes] at hnodup hallocated
  obtain ⟨hapart, hrest⟩ := List.nodup_cons.mp (List.perm_middle.nodup_iff.mp hnodup)
  have hsame : ∀ a ∈ stack ++ (tail ++ keep), (s.write head none).heap a = s.heap a := by
    intro a ha
    refine write_of_ne fun heq => hapart ?_
    rw [← heq]
    exact ha
  refine
    { threads := rfl
      retired := (List.append_nil _).symm
      destroyed := rfl
      linked := write_chain h.linked fun hmem => hapart (List.mem_append_left _ hmem)
      walked := write_chain htail fun hmem =>
        hapart (List.mem_append_right _ (List.mem_append_left _ hmem))
      nodup := hrest
      fresh := fun a ha => .inl ?_
      allocated := fun a ha => ?_
      others := fun a ha _ => ?_
      balance := ?_ }
  · rw [hnodes]
    exact List.perm_middle.symm.mem_iff.mp (List.mem_cons_of_mem head ha)
  · obtain ⟨hne, hex⟩ :=
      hallocated a (List.perm_middle.symm.mem_iff.mp (List.mem_cons_of_mem head ha))
    refine ⟨hne, ?_⟩
    show ∃ cell, (s.write head none).heap a = some cell
    rw [hsame a ha]
    exact hex
  · rw [hnodes] at ha
    refine write_of_ne fun heq => ha ?_
    rw [heq]
    exact List.mem_append_right _ List.mem_cons_self
  · have hobjects : (s.write head none).objectsAt (stack ++ (tail ++ keep)) =
        s.objectsAt (stack ++ (tail ++ keep)) :=
      objectsAt_congr fun a ha => by rw [hsame a ha]
    have hmiddle : (s.objectsAt (stack ++ head :: (tail ++ keep))).Perm
        (cell.object :: s.objectsAt (stack ++ (tail ++ keep))) := by
      refine (List.perm_middle.filterMap _).trans ?_
      rw [List.filterMap_cons, hcell]
      exact .refl _
    rw [hnodes, hphase, List.append_nil]
    show ([] ++ (s.write head none).objectsAt (stack ++ (tail ++ keep)) ++
      [cell.object]).Perm ([] ++ _)
    rw [hobjects]
    exact (List.perm_append_singleton _ _).trans hmiddle.symm

/-- The node at the cursor goes to those that the thread keeps. -/
theorem Owns.keep (h : s.Owns stack views) {now head freed next : Nat} {keep tail : List Nat}
    (hv : views[t]? = some (thread, head :: tail))
    (hphase : thread.phase = .sweeping now head keep freed)
    (htail : Chain s.nextOf 0 next tail) :
    Change s (s.enter t thread (.sweeping now next (keep ++ [head]) freed)) t thread
      { thread with phase := .sweeping now next (keep ++ [head]) freed }
      stack stack (head :: tail) tail [] [] := by
  refine h.moved hv rfl rfl rfl h.linked htail ?_ (fun _ => rfl) (fun _ _ => rfl) ?_
  · have hnodes : View.nodes (thread, head :: tail) = head :: (tail ++ keep) := by
      rw [View.nodes, hphase]
      rfl
    rw [hnodes]
    refine List.Perm.append_left stack ?_
    show (tail ++ (keep ++ [head])).Perm _
    rw [← List.append_assoc]
    exact List.perm_append_singleton head (tail ++ keep)
  · rw [hphase]
    rfl

/-- The node at the cursor is destroyed or kept. -/
theorem Inv.sweep (hs : s.Inv) (ht : s.threads[t]? = some thread) {now head freed : Nat}
    {keep : List Nat} (hphase : thread.phase = .sweeping now head keep freed) :
    (s.sweep t thread now head keep freed).Inv := by
  obtain ⟨stack, views, h⟩ := hs.owns
  obtain ⟨rest, hv⟩ := h.view ht
  have hwalked := h.walked _ (List.mem_of_getElem? hv)
  dsimp only at hwalked
  rw [hphase] at hwalked
  change Chain s.nextOf 0 head rest at hwalked
  rw [Collector.sweep]
  split
  · next hend =>
    refine hs.enter ht ?_
    rw [hphase, hend]
    rfl
  · next hhead =>
    obtain ⟨y, tail, rfl, hnext, htail⟩ := hwalked.of_ne hhead
    obtain ⟨cell, hcell, rfl⟩ := Option.map_eq_some_iff.mp hnext
    rw [hcell]
    dsimp only
    split
    · have hc := h.destroy hv hphase hcell htail
      refine hs.change h hv ht hc ?_ hs.freed_lt hs.epoch (fun a c hc => ?_) hs.fault
      · rw [hphase]
        show (s.freedCount + (freed + 1)) % _ = (s.freedCount + freed + 1) % _
        rw [Nat.add_assoc]
      · change (if a = head then none else s.heap a) = some c at hc
        split at hc
        · cases hc
        · exact hs.stamps a c hc
    · have hc := h.keep hv hphase htail
      refine hs.change h hv ht hc ?_ hs.freed_lt hs.epoch hs.stamps hs.fault
      rw [hphase]
      rfl

theorem Inv.advance (hs : s.Inv) (ht : s.threads[t]? = some thread) {g : Nat}
    (hphase : thread.phase = .advancing g) : (s.advance t thread g).Inv := by
  have hentered : (s.enter t thread .reading).Inv := hs.enter ht (by rw [hphase]; rfl)
  rw [Collector.advance]
  split
  · next hg =>
    obtain ⟨stack, views, h⟩ := hentered.owns
    refine ⟨⟨stack, views, h.threads, h.linked, h.walked, h.nodup, h.allocated, h.once⟩,
      hentered.tally, hentered.freed_lt, ?_, fun a c hc => ?_, hentered.fault⟩
    · have hepoch := hs.epoch
      show wrappingAdd g 1 = (s.advances + 1) % _
      rw [wrappingAdd]
      omega
    · exact Nat.le_succ_of_le (hentered.stamps a c hc)
  · exact hentered

/-- A change of the counter by what the thread has destroyed. -/
theorem Inv.finish (hs : s.Inv) (ht : s.threads[t]? = some thread) {freed : Nat}
    (hphase : thread.phase = .tallying freed) : (s.finish t thread freed).Inv := by
  obtain ⟨stack, views, h⟩ := hs.owns
  obtain ⟨rest, hv⟩ := h.view ht
  have hplain : (if thread.retires then Phase.resetting else .idle).profile = ([], 0, [], 0) := by
    split <;> rfl
  obtain ⟨hheld, hcursor, hunstamped, hfreed⟩ := profile_iff.mp hplain
  have hwalked := h.walked _ (List.mem_of_getElem? hv)
  have hc : Change s (s.finish t thread freed) t thread
      { thread with phase := if thread.retires then .resetting else .idle }
      stack stack rest rest [] [] := by
    refine h.moved hv rfl rfl rfl h.linked ?_ ?_ (fun _ => rfl) (fun _ _ => rfl) ?_
    · dsimp only at hwalked
      rw [hphase] at hwalked
      rw [hcursor]
      exact hwalked
    · rw [View.nodes, View.nodes, hheld, hphase]
      exact .refl _
    · rw [hunstamped, hphase]
      rfl
  refine hs.change h hv ht hc ?_ (Nat.mod_lt _ (by decide)) hs.epoch hs.stamps hs.fault
  rw [hfreed, hphase]
  show (wrappingAdd s.freedCount freed + 0) % _ = (s.freedCount + freed + 0) % _
  rw [wrappingAdd]
  omega

/-- The node of a stamped box is new to every list. -/
theorem Owns.stamp (h : s.Owns stack views) {object address : Nat}
    (hv : views[t]? = some (thread, [])) (hphase : thread.phase = .stamping object)
    (hne : address ≠ 0) (hnone : s.heap address = none) :
    Change s ((s.write address (some ⟨object, s.globalEpoch, 0⟩)).enter t thread
      (.heading address)) t thread { thread with phase := .heading address }
      stack stack [] [] [] [] := by
  obtain ⟨hnodup, hallocated⟩ := h.mine_nodup hv
  have hnodes : View.nodes (thread, []) = [] := by
    rw [View.nodes, hphase]
    rfl
  rw [hnodes, List.append_nil] at hnodup hallocated
  have hfresh : ∀ a, (∃ cell, s.heap a = some cell) → a ≠ address := by
    rintro a ⟨cell, hcell⟩ rfl
    rw [hnone] at hcell
    cases hcell
  have hstack : address ∉ stack := fun hmem => hfresh address (hallocated address hmem).2 rfl
  refine
    { threads := rfl
      retired := (List.append_nil _).symm
      destroyed := (List.append_nil _).symm
      linked := write_chain h.linked hstack
      walked := .nil
      nodup := ?_
      fresh := fun a ha => ?_
      allocated := fun a ha => ?_
      others := fun a _ hex => write_of_ne (hfresh a hex)
      balance := ?_ }
  · show (stack ++ [address]).Nodup
    exact (List.perm_append_singleton address stack).nodup_iff.mpr
      (List.nodup_cons.mpr ⟨hstack, hnodup⟩)
  · rcases List.mem_append.mp ha with hold | hnew
    · exact .inl (List.mem_append_left _ hold)
    · obtain rfl := List.mem_singleton.mp hnew
      exact .inr hnone
  · rcases List.mem_append.mp ha with hold | hnew
    · refine ⟨(hallocated a hold).1, ?_⟩
      show ∃ cell, (s.write address _).heap a = some cell
      rw [write_of_ne (hfresh a (hallocated a hold).2)]
      exact (hallocated a hold).2
    · obtain rfl := List.mem_singleton.mp hnew
      exact ⟨hne, _, write_self⟩
  · have hobjects :
        (s.write address (some ⟨object, s.globalEpoch, 0⟩)).objectsAt stack =
          s.objectsAt stack :=
      objectsAt_congr fun a ha => by rw [write_of_ne (hfresh a (hallocated a ha).2)]
    have hnew : (s.write address (some ⟨object, s.globalEpoch, 0⟩)).objectsAt [address] =
        [object] := by
      rw [objectsAt, List.filterMap_cons, write_self]
      rfl
    rw [hnodes, hphase, List.append_nil, List.append_nil, List.append_nil]
    show ((s.write address _).objectsAt (stack ++ [address])).Perm _
    rw [objectsAt_append, hobjects, hnew]
    exact List.perm_append_singleton _ _

theorem Inv.stamp (hs : s.Inv) (ht : s.threads[t]? = some thread) {object address : Nat}
    (hphase : thread.phase = .stamping object) (hne : address ≠ 0)
    (hnone : s.heap address = none) :
    ((s.write address (some ⟨object, s.globalEpoch, 0⟩)).enter t thread
      (.heading address)).Inv := by
  obtain ⟨stack, views, h⟩ := hs.owns
  obtain ⟨rest, hv⟩ := h.view ht
  obtain rfl := h.rest_nil hv (by rw [hphase]; rfl)
  refine hs.change h hv ht (h.stamp hv hphase hne hnone) ?_ hs.freed_lt hs.epoch
    (fun a c hc => ?_) hs.fault
  · rw [hphase]
    rfl
  · change (if a = address then _ else s.heap a) = some c at hc
    split at hc
    · cases hc
      show s.globalEpoch ≤ s.advances
      rw [hs.epoch]
      exact Nat.mod_le _ _
    · exact hs.stamps a c hc

theorem Inv.retire (hs : s.Inv) (ht : s.threads[t]? = some thread)
    (hphase : thread.phase = .idle) :
    Inv { s.enter t thread (.stamping s.retired) with retired := s.retired + 1 } := by
  obtain ⟨stack, views, h⟩ := hs.owns
  obtain ⟨rest, hv⟩ := h.view ht
  obtain rfl := h.rest_nil hv (by rw [hphase]; rfl)
  obtain ⟨hnodup, hallocated⟩ := h.mine_nodup hv
  have hnodes : View.nodes (thread, []) = [] := by
    rw [View.nodes, hphase]
    rfl
  rw [hnodes] at hnodup hallocated
  have hc : Change s { s.enter t thread (.stamping s.retired) with retired := s.retired + 1 }
      t thread { thread with phase := .stamping s.retired } stack stack [] [] [s.retired] [] := by
    refine
      { threads := rfl
        retired := List.range_succ
        destroyed := (List.append_nil _).symm
        linked := h.linked
        walked := .nil
        nodup := hnodup
        fresh := fun a ha => .inl (by rw [hnodes]; exact ha)
        allocated := hallocated
        others := fun _ _ _ => rfl
        balance := ?_ }
    rw [hnodes, hphase, List.append_nil]
    exact (List.perm_append_singleton _ _).symm
  refine hs.change h hv ht hc ?_ hs.freed_lt hs.epoch hs.stamps hs.fault
  rw [hphase]
  rfl

theorem Inv.scan (hs : s.Inv) (ht : s.threads[t]? = some thread) {g i : Nat}
    (hphase : thread.phase = .scanning g i) : (s.scan t thread g i).Inv := by
  rw [Collector.scan]
  split
  · exact hs.enter ht (by rw [hphase]; rfl)
  · split
    · exact hs.enter ht (by rw [hphase]; rfl)
    · exact hs.enter ht (by rw [hphase]; rfl)

theorem Inv.count (hs : s.Inv) (ht : s.threads[t]? = some thread)
    (hphase : thread.phase = .counting) : (s.count t thread).Inv := by
  rw [Collector.count]
  split
  · refine @Same.inv s _ t thread { thread with phase := .loading, retires := true } ?_ hs ht
    exact ⟨rfl, rfl, rfl, rfl, rfl, rfl, rfl, rfl, rfl, by rw [hphase]; rfl⟩
  · refine @Same.inv s _ t thread { thread with phase := .idle } ?_ hs ht
    exact ⟨rfl, rfl, rfl, rfl, rfl, rfl, rfl, rfl, rfl, by rw [hphase]; rfl⟩

theorem Inv.access (hs : s.Inv) (ht : s.threads[t]? = some thread) {fails : Bool}
    (hrun : s.access t thread fails = some s') : s'.Inv := by
  rw [Collector.access] at hrun
  split at hrun
  · cases hrun
  · cases hrun
  · next slot epoch hphase =>
    cases hrun
    refine @Same.inv s _ t thread
      { thread with phase := .idle, guards := thread.guards ++ [slot] } ?_ hs ht
    exact ⟨rfl, rfl, rfl, rfl, rfl, rfl, rfl, rfl, rfl, by rw [hphase]; rfl⟩
  · next node hphase =>
    cases hrun
    exact hs.enter ht (by rw [hphase]; rfl)
  · next node head hphase =>
    cases hrun
    exact hs.push ht (by rw [hphase]; rfl) (fun _ => rfl) rfl
  · next hphase =>
    cases hrun
    exact hs.count ht hphase
  · next hphase =>
    cases hrun
    exact hs.enter ht (by rw [hphase]; rfl)
  · next g i hphase =>
    cases hrun
    exact hs.scan ht hphase
  · next g hphase =>
    cases hrun
    exact hs.advance ht hphase
  · next hphase =>
    cases hrun
    exact hs.enter ht (by rw [hphase]; rfl)
  · next now hphase =>
    cases hrun
    exact hs.swap ht hphase
  · next now head keep freed hphase =>
    cases hrun
    exact hs.sweep ht hphase
  · next freed hphase =>
    cases hrun
    exact hs.enter ht (by rw [hphase]; rfl)
  · next node keep freed hphase =>
    cases hrun
    exact hs.enter ht (by rw [hphase]; rfl)
  · next node head keep freed hphase =>
    cases hrun
    exact hs.push ht (by rw [hphase]; rfl) (fun _ => rfl) rfl
  · next freed hphase =>
    cases hrun
    exact hs.finish ht hphase
  · next hphase =>
    cases hrun
    refine @Same.inv s _ t thread { thread with phase := .idle, retires := false } ?_ hs ht
    exact ⟨rfl, rfl, rfl, rfl, rfl, rfl, rfl, rfl, rfl, by rw [hphase]; rfl⟩

theorem Inv.step {a : Action} (hs : s.Inv) (h : s.step a = some s') : s'.Inv := by
  cases a with
  | pin t slot =>
    obtain ⟨thread, ht, h⟩ := Option.bind_eq_some_iff.mp h
    split at h
    · next hok =>
      cases h
      exact hs.enter ht (by rw [hok.1]; rfl)
    · cases h
  | dropGuard t slot =>
    obtain ⟨thread, ht, h⟩ := Option.bind_eq_some_iff.mp h
    split at h
    · cases h
      refine @Same.inv s _ t thread { thread with guards := thread.guards.erase slot } ?_ hs ht
      exact ⟨rfl, rfl, rfl, rfl, rfl, rfl, rfl, rfl, rfl, rfl⟩
    · cases h
  | retire t =>
    obtain ⟨thread, ht, h⟩ := Option.bind_eq_some_iff.mp h
    split at h
    · next hphase =>
      cases h
      exact hs.retire ht hphase
    · cases h
  | stamp t address =>
    obtain ⟨thread, ht, h⟩ := Option.bind_eq_some_iff.mp h
    split at h
    · next object hphase =>
      split at h
      · next hok =>
        cases h
        exact hs.stamp ht hphase hok.1 hok.2
      · cases h
    · cases h
  | collect t =>
    obtain ⟨thread, ht, h⟩ := Option.bind_eq_some_iff.mp h
    split at h
    · next hphase =>
      cases h
      exact hs.enter ht (by rw [hphase]; rfl)
    · cases h
  | run t fails =>
    obtain ⟨thread, ht, h⟩ := Option.bind_eq_some_iff.mp h
    exact hs.access ht h

theorem start_inv (threads slots : Nat) : (start threads slots).Inv := by
  have hnodes : ∀ view ∈ List.replicate threads ((⟨.idle, [], false⟩, []) : View),
      view = (⟨.idle, [], false⟩, []) := fun view hview => List.eq_of_mem_replicate hview
  have hflat : ∀ {β : Type} (f : View → List β), f (⟨.idle, [], false⟩, []) = [] →
      (List.replicate threads ((⟨.idle, [], false⟩, []) : View)).flatMap f = [] := by
    intro β f hf
    refine List.flatMap_eq_nil_iff.mpr fun view hview => ?_
    rw [hnodes view hview]
    exact hf
  refine ⟨⟨[], List.replicate threads (⟨.idle, [], false⟩, []), ?_, .nil, ?_, ?_, ?_, ?_⟩,
    ?_, (by decide : 0 < 0x10000000000000000), rfl, nofun, rfl⟩
  · exact List.map_replicate
  · intro view hview
    rw [hnodes view hview]
    exact .nil
  · rw [owned, hflat _ rfl]
    exact List.nodup_nil
  · rw [owned, hflat _ rfl]
    nofun
  · rw [owned, hflat _ rfl]
    have hthreads : (start threads slots).threads.flatMap (·.phase.unstamped) = [] := by
      refine List.flatMap_eq_nil_iff.mpr fun thread ht => ?_
      rw [List.eq_of_mem_replicate ht]
      rfl
    rw [hthreads]
    exact .refl _
  · have hsum : ((start threads slots).threads.map (·.phase.freed)).sum = 0 := by
      refine List.sum_eq_zero fun n hn => ?_
      obtain ⟨thread, ht, rfl⟩ := List.mem_map.mp hn
      rw [List.eq_of_mem_replicate ht]
      rfl
    rw [hsum]
    rfl

theorem Reached.inv {threads slots : Nat} (h : Reached threads slots s) : s.Inv :=
  h.invariant (start_inv threads slots) fun _ _ _ hs _ hstep => hs.step hstep

end Collector

end Garbage

end Sxla
